import IeumChain.EventTheorems
import IeumChain.SyncTheorems

/-!
# What a block hash pins

The hash of a block is taken over its fields one after the other, without lengths. The events at
the end can be cut off from the right, since each ends in a JSON text that names it; the
transactions before them are ids of one length; the height and the time have a fixed width. The
producer in between has neither a length nor an end: its last bytes may be the first transaction
id. So a hash pins the block up to that: among blocks of one height on one predecessor, those with
the same hash are equal exactly when their producers are of one length (`certified_block_unique`).
-/

namespace IeumChain

open Lib

section
variable [Primitives]

/-! ## Transactions -/

/-- The texts a transaction is hashed over with a length have one. Every text in memory has. -/
def Transaction.Sized (tx : Transaction) : Prop := Fits tx.sender ∧ Fits tx.receiver

omit [Primitives] in
/-- The signing bytes are cut off the front of a byte string in one way. -/
lemma signingBytes_append_inj {tx tx' : Transaction} {r r' : Bytes} (hs : tx.Sized)
    (hs' : tx'.Sized) (h : tx.signingBytes ++ r = tx'.signingBytes ++ r') :
    (tx.sender = tx'.sender ∧ tx.receiver = tx'.receiver ∧ tx.amount = tx'.amount ∧
      tx.fee = tx'.fee ∧ tx.nonce = tx'.nonce) ∧ r = r' := by
  simp only [Transaction.signingBytes, List.append_assoc] at h
  obtain ⟨hsender, h⟩ := pushText_append_inj hs.1 hs'.1 h
  obtain ⟨hreceiver, h⟩ := pushText_append_inj hs.2 hs'.2 h
  obtain ⟨hamount, h⟩ := append_inj_of_length (by simp) h
  obtain ⟨hfee, h⟩ := append_inj_of_length (by simp) h
  obtain ⟨hnonce, h⟩ := append_inj_of_length (by simp) h
  exact ⟨⟨hsender, hreceiver, beBytes_bitVec_inj hamount, beBytes_bitVec_inj hfee,
    beBytes_uint64_inj hnonce⟩, h⟩

omit [Primitives] in
/-- The bytes a transaction id is the hash of determine the transaction. -/
lemma idPreimage_inj {tx tx' : Transaction} (hs : tx.Sized) (hs' : tx'.Sized)
    (h : tx.idPreimage = tx'.idPreimage) : tx = tx' := by
  obtain ⟨⟨hsender, hreceiver, hamount, hfee, hnonce⟩, htext⟩ := signingBytes_append_inj hs hs' h
  cases tx
  cases tx'
  simp only at hsender hreceiver hamount hfee hnonce htext
  rw [hsender, hreceiver, hamount, hfee, hnonce, textBytes_inj.mp htext]

lemma length_textBytes_id (tx : Transaction) : (textBytes tx.id).length = 64 :=
  textLen_sha256Hex _

lemma isHexByte_of_mem_transactionBytes {txs : List Transaction} {b : UInt8}
    (h : b ∈ Block.transactionBytes txs) : isHexByte b = true := by
  obtain ⟨tx, _, hb⟩ := List.mem_flatMap.mp h
  exact isHexByte_of_mem_hexEncode hb

/-- The ids one after the other determine the list of ids. -/
lemma transactionBytes_inj {txs : List Transaction} :
    ∀ {txs' : List Transaction}, Block.transactionBytes txs = Block.transactionBytes txs' →
      txs.map Transaction.id = txs'.map Transaction.id := by
  induction txs with
  | nil =>
    intro txs' h
    cases txs' with
    | nil => rfl
    | cons tx' txs' =>
      have hlen := congrArg List.length h
      simp only [Block.transactionBytes, List.flatMap_nil, List.flatMap_cons, List.length_nil,
        List.length_append, length_textBytes_id] at hlen
      omega
  | cons tx txs ih =>
    intro txs' h
    cases txs' with
    | nil =>
      have hlen := congrArg List.length h
      simp only [Block.transactionBytes, List.flatMap_nil, List.flatMap_cons, List.length_nil,
        List.length_append, length_textBytes_id] at hlen
      omega
    | cons tx' txs' =>
      simp only [Block.transactionBytes, List.flatMap_cons] at h
      obtain ⟨hid, hrest⟩ :=
        append_inj_of_length (by rw [length_textBytes_id, length_textBytes_id]) h
      rw [List.map_cons, List.map_cons, textBytes_inj.mp hid, ih hrest]

/-- Without collisions, equal ids are of equal transactions. -/
lemma eq_of_map_id {inputs : Bytes → Prop} (hsha : CollisionFree inputs)
    {txs : List Transaction} : ∀ {txs' : List Transaction},
      (∀ tx ∈ txs, inputs tx.idPreimage ∧ tx.Sized) →
      (∀ tx ∈ txs', inputs tx.idPreimage ∧ tx.Sized) →
      txs.map Transaction.id = txs'.map Transaction.id → txs = txs' := by
  induction txs with
  | nil =>
    intro txs' _ _ h
    exact (List.map_eq_nil_iff.mp h.symm).symm
  | cons tx txs ih =>
    intro txs' hin hin' h
    cases txs' with
    | nil => simp at h
    | cons tx' txs' =>
      obtain ⟨hid, hrest⟩ := List.cons.inj h
      obtain ⟨⟨htx, hsized⟩, hin⟩ := List.forall_mem_cons.mp hin
      obtain ⟨⟨htx', hsized'⟩, hin'⟩ := List.forall_mem_cons.mp hin'
      have heq := idPreimage_inj hsized hsized' (hsha.eq_of_hex htx htx' hid)
      rw [heq, ih hin hin' hrest]

/-! ## Events -/

omit [Primitives] in
/-- The text of the last event stands at the end, with its id before it. -/
lemma append_eventBytes_concat (u : Bytes) (events : List ScheduledEvent) (e : ScheduledEvent) :
    u ++ Block.eventBytes (events ++ [e])
      = (u ++ Block.eventBytes events ++ textBytes e.id) ++ e.consensusBytes := by
  simp [Block.eventBytes, List.flatMap_append, List.append_assoc]

omit [Primitives] in
lemma append_eventBytes_nil (u : Bytes) : u ++ Block.eventBytes [] = u := List.append_nil u

omit [Primitives] in
/-- Behind hexadecimal text, the bytes of the events are cut off from the right: the last one is
found with its id, and what is left is shorter. -/
lemma append_eventBytes_inj {u v : Bytes} (hu : ∀ b ∈ u, isHexByte b = true)
    (hv : ∀ b ∈ v, isHexByte b = true) {events : List ScheduledEvent} :
    ∀ {events' : List ScheduledEvent},
      u ++ Block.eventBytes events = v ++ Block.eventBytes events' → u = v ∧ events = events' := by
  -- hexadecimal text holds no brace, and every event does
  have hbrace : ∀ {w x : Bytes} {e : ScheduledEvent}, (∀ b ∈ w, isHexByte b = true) →
      w ≠ x ++ e.consensusBytes := by
    intro w x e hw h
    have hmem : (0x7b : UInt8) ∈ w :=
      h ▸ List.mem_append_right _ (EventText.brace_mem_consensusBytes e)
    exact absurd (hw _ hmem) (by decide)
  induction events using List.reverseRecOn with
  | nil =>
    intro events' h
    rw [append_eventBytes_nil] at h
    rcases List.eq_nil_or_concat' events' with rfl | ⟨rest, e, rfl⟩
    · rw [append_eventBytes_nil] at h
      exact ⟨h, rfl⟩
    · rw [append_eventBytes_concat] at h
      exact absurd h (hbrace hu)
  | append_singleton rest e ih =>
    intro events' h
    rw [append_eventBytes_concat] at h
    rcases List.eq_nil_or_concat' events' with rfl | ⟨rest', e', rfl⟩
    · rw [append_eventBytes_nil] at h
      exact absurd h.symm (hbrace hv)
    · rw [append_eventBytes_concat] at h
      obtain ⟨hbefore, htext⟩ := (EventText.isRecord_consensusBytes e).append_inj (by decide)
        (EventText.isRecord_consensusBytes e') h
      obtain rfl := consensusBytes_inj htext
      rw [List.append_cancel_right_eq] at hbefore
      obtain ⟨huv, hrest⟩ := ih hbefore
      rw [huv, hrest]
      exact ⟨rfl, rfl⟩

/-! ## Blocks -/

/-- The byte strings hashed for a block: its own and those of its transactions. -/
def Block.Hashed (b : Block) (x : Bytes) : Prop :=
  x = b.preimage ∨ ∃ tx ∈ b.transactions, x = tx.idPreimage

/-- Up to the length of the producer, the preimage determines the block. -/
lemma eq_of_preimage {b b' : Block} {inputs : Bytes → Prop} (hsha : CollisionFree inputs)
    (hin : ∀ tx ∈ b.transactions, inputs tx.idPreimage ∧ tx.Sized)
    (hin' : ∀ tx ∈ b'.transactions, inputs tx.idPreimage ∧ tx.Sized)
    (hheight : b.height = b'.height) (hprevious : b.previousHash = b'.previousHash)
    (hproducer : textLen b.producer = textLen b'.producer) (hhash : b.hash = b'.hash)
    (h : b.preimage = b'.preimage) : b = b' := by
  obtain ⟨height, previousHash, timestamp, producer, transactions, systemEvents, hash⟩ := b
  obtain ⟨height', previousHash', timestamp', producer', transactions', systemEvents', hash'⟩ := b'
  simp only at hheight hprevious hproducer hhash hin hin'
  subst hheight hprevious hhash
  simp only [Block.preimage, List.append_assoc, List.append_cancel_left_eq] at h
  obtain ⟨htime, h⟩ := append_inj_of_length (by simp) h
  obtain ⟨hname, h⟩ := append_inj_of_length hproducer h
  obtain ⟨htxs, hevents⟩ := append_eventBytes_inj
    (fun b hb => isHexByte_of_mem_transactionBytes hb)
    (fun b hb => isHexByte_of_mem_transactionBytes hb) h
  rw [beBytes_uint64_inj htime, textBytes_inj.mp hname,
    eq_of_map_id hsha hin hin' (transactionBytes_inj htxs), hevents]

/-- What `apply_sync_certificates` of one certificate that is applied leaves as chain. -/
lemma applySyncCertificates_one {r : ConsensusRuntime} {env : ℕ → Reading}
    {c : FinalityCertificate} (h : (r.applySyncCertificates env [c]).1 = .ok 1) :
    r.chain.applyBlock c.block = .ok (r.applySyncCertificates env [c]).2.chain := by
  rcases ConsensusRuntime.applySyncCertificates_singleton r env c with
    ⟨result, hne, heq⟩ | ⟨chain, hchain, ⟨r', hstart, heq⟩ | ⟨e, _, heq⟩⟩
  · rw [heq] at h
    exact absurd h hne
  · rw [heq, (ConsensusRuntime.startNextHeight_frame hstart).1]
    exact hchain
  · rw [heq] at h
    cases h

/-- **A certified hash pins the block up to the end of its producer.** Two valid certificates of
one hash, height and predecessor, where SHA-256 does not collide on what was hashed for the two
blocks: the blocks are equal, and nodes with one chain that apply the one and the other have the
same balances, nonces and executed events, exactly when the producers are of one length. -/
theorem certified_block_unique (validators : List Validator) (c c' : FinalityCertificate)
    (hc : c.verify validators = .ok ()) (hc' : c'.verify validators = .ok ())
    (hhash : c.block.hash = c'.block.hash) (hheight : c.block.height = c'.block.height)
    (hprevious : c.block.previousHash = c'.block.previousHash)
    (hsha : CollisionFree fun x => c.block.Hashed x ∨ c'.block.Hashed x)
    (hsized : ∀ tx ∈ c.block.transactions ++ c'.block.transactions, tx.Sized) :
    (c.block = c'.block ∧
      ∀ (r r' : ConsensusRuntime) (env env' : ℕ → Reading), r.chain = r'.chain →
        (r.applySyncCertificates env [c]).1 = .ok 1 →
        (r'.applySyncCertificates env' [c']).1 = .ok 1 →
        (r.applySyncCertificates env [c]).2.chain.state
          = (r'.applySyncCertificates env' [c']).2.chain.state) ↔
      textLen c.block.producer = textLen c'.block.producer := by
  constructor
  · rintro ⟨hblock, _⟩
    rw [hblock]
  · intro hproducer
    simp only [FinalityCertificate.verify, bind_eq_ok, ensure_eq_ok] at hc hc'
    obtain ⟨_, hcalc, _⟩ := hc
    obtain ⟨_, hcalc', _⟩ := hc'
    have hpreimage : c.block.preimage = c'.block.preimage :=
      hsha.eq_of_hex (.inl (.inl rfl)) (.inr (.inl rfl))
        (hcalc.symm.trans (hhash.trans hcalc'))
    have hblock : c.block = c'.block := by
      refine eq_of_preimage hsha (fun tx htx => ?_) (fun tx htx => ?_) hheight hprevious
        hproducer hhash hpreimage
      · exact ⟨.inl (.inr ⟨tx, htx, rfl⟩), hsized tx (List.mem_append_left _ htx)⟩
      · exact ⟨.inr (.inr ⟨tx, htx, rfl⟩), hsized tx (List.mem_append_right _ htx)⟩
    refine ⟨hblock, fun r r' env env' hchain hok hok' => ?_⟩
    have happly := applySyncCertificates_one hok
    have happly' := applySyncCertificates_one hok'
    rw [hchain, hblock, happly'] at happly
    rw [Except.ok.inj happly]

end

section
attribute [local instance] Devnet.primitives

/-- The block with the transfer, certified with a precommit that is repeated. -/
def paidCertificate (n : ℕ) : FinalityCertificate :=
  ⟨Devnet.paid, 0, List.replicate (n + 1) Devnet.paidPrecommit⟩

lemma verify_paidCertificate (n : ℕ) : (paidCertificate n).verify [Devnet.self] = .ok () :=
  Devnet.verify_certificate n (by simp [Devnet.votes]) Devnet.paid_hash ⟨rfl, rfl, rfl⟩

/-- The preimages of the block and of its transfer have different digests. -/
lemma collisionFree_paid :
    CollisionFree fun x => x = Devnet.paid.preimage ∨ x = Devnet.transfer.idPreimage := by
  have hne : sha256 Devnet.paid.preimage ≠ sha256 Devnet.transfer.idPreimage := by
    intro h
    have hdigest : Devnet.paid.hash = sha256Hex Devnet.transfer.idPreimage := by
      rw [Devnet.paid_hash, Block.calculateHash, sha256Hex, h, sha256Hex]
    have hid : Devnet.paid.hash = hexEncode (Sha256.hash Devnet.transfer.idPreimage) := hdigest
    rw [Devnet.transfer_id] at hid
    exact absurd (hexEncode_inj hid) (by decide)
  rintro x y (rfl | rfl) (rfl | rfl) h
  · rfl
  · exact absurd h hne
  · exact absurd h.symm hne
  · rfl

lemma hashed_paid {x : Bytes} (h : Devnet.paid.Hashed x) :
    x = Devnet.paid.preimage ∨ x = Devnet.transfer.idPreimage := by
  rcases h with h | ⟨tx, htx, h⟩
  · exact .inl h
  · rw [List.mem_singleton.mp htx] at h
    exact .inr h

lemma sized_transfer : Devnet.transfer.Sized := by
  have hkey : ∀ n, Fits (hexEncode (beBytes 32 n)) := by
    intro n
    rw [Fits, textLen_hexEncode, length_beBytes]
    decide
  exact ⟨hkey _, hkey _⟩

/-- The node applies a certificate of a block without events on the genesis block. -/
lemma node_applies {c : FinalityCertificate} {chain : Blockchain}
    (hverify : c.verify [Devnet.self] = .ok ()) (hevents : c.block.systemEvents = [])
    (htime : c.block.timestamp = 100) (happly : Devnet.chain.applyBlock c.block = .ok chain) :
    ∃ r, Devnet.node.applySyncCertificates (fun _ => Devnet.reading "") [c] = (.ok 1, r) ∧
      r.chain = chain := by
  have hscheduled : ConsensusRuntime.Scheduled [Devnet.self] EventSchedule.empty Devnet.chain
      c.block := by
    refine ⟨⟨Block.genesis, rfl, ?_⟩, ?_, ?_⟩
    · rw [htime]
      decide
    · rw [ConsensusRuntime.configuredEvents, hevents]
      rfl
    · rw [hevents]
      rfl
  have hheight := (Blockchain.tipHeight_applyBlock happly).2
  have hready : ConsensusRuntime.Ready [Devnet.self] EventSchedule.empty Devnet.node :=
    ⟨rfl, rfl, by decide, by decide⟩
  obtain ⟨r, happlied, hchain, _⟩ := ConsensusRuntime.applySyncCertificates_finalizes
    (fun _ => Devnet.reading "") hready (.cons hverify hscheduled happly (.nil chain))
    (by rw [hheight]; decide) fun c' hc' i => by
      refine ConsensusRuntime.clockAllows_of_le ?_
      rw [List.mem_singleton.mp hc', htime]
      decide
  exact ⟨r, happlied, hchain⟩

/-- Two certificates of the block with the transfer have one effect. -/
theorem certified_block_unique_paid :
    ∃ r r', Devnet.node.applySyncCertificates (fun _ => Devnet.reading "") [paidCertificate 0]
        = (.ok 1, r) ∧
      Devnet.node.applySyncCertificates (fun _ => Devnet.reading "") [paidCertificate 1]
        = (.ok 1, r') ∧
      r.chain.state = r'.chain.state := by
  obtain ⟨c, hpaid, _⟩ := Devnet.paid_applies
  obtain ⟨r, hr, _⟩ := node_applies (verify_paidCertificate 0) rfl rfl hpaid
  obtain ⟨r', hr', _⟩ := node_applies (verify_paidCertificate 1) rfl rfl hpaid
  have hsha : CollisionFree fun x => (paidCertificate 0).block.Hashed x ∨
      (paidCertificate 1).block.Hashed x := fun x y hx hy =>
    collisionFree_paid x y (hashed_paid (or_self_iff.mp hx)) (hashed_paid (or_self_iff.mp hy))
  have hsized : ∀ tx ∈ (paidCertificate 0).block.transactions ++
      (paidCertificate 1).block.transactions, tx.Sized := by
    intro tx htx
    have htransfer : tx = Devnet.transfer := by
      rcases List.mem_append.mp htx with h | h <;> exact List.mem_singleton.mp h
    rw [htransfer]
    exact sized_transfer
  obtain ⟨_, hsame⟩ := (certified_block_unique [Devnet.self] (paidCertificate 0)
    (paidCertificate 1) (verify_paidCertificate 0) (verify_paidCertificate 1) rfl rfl rfl hsha
    hsized).mpr rfl
  have hstate := hsame Devnet.node Devnet.node _ _ rfl (congrArg Prod.fst hr)
    (congrArg Prod.fst hr')
  rw [hr, hr'] at hstate
  exact ⟨r, r', hr, hr', hstate⟩

/-- The transfer is left out, and its id stands behind the producer. -/
def twin : Block :=
  { Devnet.paid with
    producer := Devnet.validator ++ Devnet.transfer.id
    transactions := [] }

def twinCertificate : FinalityCertificate := ⟨twin, 0, [Devnet.paidPrecommit]⟩

lemma twin_preimage : twin.preimage = Devnet.paid.preimage := by
  simp only [Block.preimage, twin, textBytes_append, Block.transactionBytes, List.flatMap_nil,
    Devnet.paid, Devnet.block, List.flatMap_cons, List.append_nil, List.append_assoc]

lemma twin_hash : twin.hash = twin.calculateHash := by
  rw [Block.calculateHash, twin_preimage]
  exact Devnet.paid_hash

lemma verify_twinCertificate : twinCertificate.verify [Devnet.self] = .ok () :=
  Devnet.verify_certificate 0 (by simp [Devnet.votes]) twin_hash ⟨rfl, rfl, rfl⟩

lemma twin_applies : ∃ c, Devnet.chain.applyBlock twin = .ok c ∧ c.nextNonces = ∅ :=
  ⟨_, Blockchain.applyBlock_eq_ok.mpr ⟨Block.genesis, Devnet.chain.state, rfl,
    ⟨rfl, Devnet.genesis_hash, twin_hash⟩, rfl, rfl⟩, rfl⟩

/-- Two certified blocks of one hash, height and predecessor with different effects. -/
theorem certified_block_ambiguous :
    (paidCertificate 0).verify [Devnet.self] = .ok () ∧
      twinCertificate.verify [Devnet.self] = .ok () ∧
      (paidCertificate 0).block.hash = twinCertificate.block.hash ∧
      (paidCertificate 0).block.height = twinCertificate.block.height ∧
      (paidCertificate 0).block.previousHash = twinCertificate.block.previousHash ∧
      CollisionFree (fun x => (paidCertificate 0).block.Hashed x ∨ twinCertificate.block.Hashed x) ∧
      (paidCertificate 0).block ≠ twinCertificate.block ∧
      ∃ r r', Devnet.node.applySyncCertificates (fun _ => Devnet.reading "") [paidCertificate 0]
          = (.ok 1, r) ∧
        Devnet.node.applySyncCertificates (fun _ => Devnet.reading "") [twinCertificate]
          = (.ok 1, r') ∧
        r.chain.state ≠ r'.chain.state := by
  -- the twin hashes the text of the paid block
  have htwin : ∀ {x}, twin.Hashed x → x = Devnet.paid.preimage := by
    rintro x (h | ⟨tx, htx, _⟩)
    · rw [h, twin_preimage]
    · exact absurd htx List.not_mem_nil
  have hhashed : ∀ {x}, Devnet.paid.Hashed x ∨ twin.Hashed x →
      x = Devnet.paid.preimage ∨ x = Devnet.transfer.idPreimage := by
    rintro x (h | h)
    · exact hashed_paid h
    · exact .inl (htwin h)
  refine ⟨verify_paidCertificate 0, verify_twinCertificate, rfl, rfl, rfl,
    fun x y hx hy => collisionFree_paid x y (hhashed hx) (hhashed hy), fun h => ?_, ?_⟩
  · have hlength := congrArg (fun b : Block => b.transactions.length) h
    exact absurd hlength (by decide)
  · obtain ⟨c, hpaid, hnonces⟩ := Devnet.paid_applies
    obtain ⟨c', hempty, hnonces'⟩ := twin_applies
    obtain ⟨r, hr, hrchain⟩ := node_applies (c := paidCertificate 0) (verify_paidCertificate 0)
      rfl rfl hpaid
    obtain ⟨r', hr', hrchain'⟩ := node_applies (c := twinCertificate) verify_twinCertificate
      rfl rfl hempty
    refine ⟨r, r', hr, hr', fun hstate => ?_⟩
    rw [hrchain, hrchain'] at hstate
    have hsame : c.nextNonces = c'.nextNonces := congrArg LedgerState.nextNonces hstate
    rw [hnonces, hnonces'] at hsame
    have hlookup := congrArg (Finmap.lookup Devnet.validator) hsame
    rw [Finmap.lookup_insert, Finmap.lookup_empty] at hlookup
    cases hlookup

end

end IeumChain
