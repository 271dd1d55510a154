import IeumChain.RpcTheorems
import IeumChain.MempoolTheorems
import IeumChain.RawTransactionTheorems

/-!
# Transfers without a nonce, one after the other

The node takes the nonce of a transfer from the chain, which no transfer changes before the next
block. So all transfers of a sequence are offered to the pool under one nonce, and the second to
be valid replaces the first or is refused because of it. `Collisionless` is what a wallet expects of
the sequence; it holds of exactly those in which nothing waits under the nonce whenever a valid
request comes (`nonces_collisionless_iff`).
-/

namespace IeumChain

open Lib

section
variable [Primitives]

namespace Mempool

/-! ## What `add` leaves, whatever the pool -/

/-- A refused transaction leaves the pool as it was. -/
lemma add_eq_error {p q : Mempool} {tx : Transaction} {e : String}
    (h : p.add tx = (.error e, q)) : q = p := by
  unfold add at h
  split_ifs at h with hid hsize
  · exact (Prod.mk.inj h).2.symm
  · exact (Prod.mk.inj h).2.symm
  · have hkeep : ∀ e q, p.replacePrevious tx = (.error e, q) → q = p := by
      intro e q hreplace
      unfold replacePrevious at hreplace
      split at hreplace
      next => cases hreplace
      next =>
        split at hreplace
        next => exact (Prod.mk.inj hreplace).2.symm
        next =>
          dsimp only at hreplace
          split at hreplace
          next => exact (Prod.mk.inj hreplace).2.symm
          next => cases hreplace
    split at h
    next e' q' hreplace =>
      rw [← (Prod.mk.inj h).2]
      exact hkeep e' q' hreplace
    next => cases h

/-- The pool for which `add` makes way has lost transactions only. -/
lemma sheds_replacePrevious {p q : Mempool} {tx : Transaction}
    (h : p.replacePrevious tx = (.ok (), q)) : q.transactions.Sublist p.transactions := by
  unfold replacePrevious at h
  split at h
  next =>
    rw [← (Prod.mk.inj h).2]
  next =>
    split at h
    next => cases h
    next =>
      dsimp only at h
      split at h
      next => cases h
      next =>
        rw [← (Prod.mk.inj h).2]
        exact List.eraseIdx_sublist _ _

/-- A taken transaction is held, and the others were held before. -/
lemma add_eq_ok {p q : Mempool} {tx : Transaction} (h : p.add tx = (.ok (), q)) :
    tx ∈ q.transactions ∧ ∀ other ∈ q.transactions, other ∈ p.transactions ∨ other = tx := by
  unfold add at h
  split_ifs at h with hid hsize
  · cases h
  · cases h
  · split at h
    next => cases h
    next base hreplace =>
      rw [← (Prod.mk.inj h).2, push]
      refine ⟨List.mem_append_right _ (List.mem_singleton_self _), fun other hother => ?_⟩
      rcases List.mem_append.mp hother with hmem | hmem
      · exact .inl ((sheds_replacePrevious hreplace).subset
          ((sheds_evict base _).transactions.subset hmem))
      · exact .inr (List.mem_singleton.mp hmem)

end Mempool

namespace Rpc

/-! ## Sequences of requests -/

/-- The server's state with the transfers it has taken since the sequence began. -/
structure Session where
  state : RpcState
  accepted : List Transaction

/-- Serve a request and note its transfer when the answer is an id. -/
def Session.send (x : Session) (params : List Param) : Session where
  state := (sendTransaction x.state params).2
  accepted :=
    match transferOf x.state params, (sendTransaction x.state params).1 with
    | .ok tx, .ok _ => x.accepted ++ [tx]
    | _, _ => x.accepted

/-- Serve the requests one after the other. -/
def serve (start : RpcState) (requests : List (List Param)) : Session :=
  requests.foldl Session.send ⟨start, []⟩

lemma serve_concat (start : RpcState) (requests : List (List Param)) (params : List Param) :
    serve start (requests ++ [params]) = (serve start requests).send params := by
  rw [serve, List.foldl_append, List.foldl_cons, List.foldl_nil, serve]

/-- A request without a nonce from the account of a loaded wallet. -/
def FromAccount (wallets : HashMap String AccountWallet) (wallet : AccountWallet)
    (params : List Param) : Prop :=
  ∃ field rest sender, params = .object field :: rest ∧ field "from" = some sender ∧
    wallets.lookup (normalizeAddress sender) = some wallet ∧ field "nonce" = none

/-- The place in the pool of the account's next transfer. -/
def nextSlot (state : RpcState) (wallet : AccountWallet) : String × UInt64 :=
  (wallet.address, state.chain.nextNonce wallet.address)

lemma slot_of_transferOf {state : RpcState} {wallet : AccountWallet} {params : List Param}
    {tx : Transaction} (hfrom : FromAccount state.wallets wallet params)
    (h : transferOf state params = .ok tx) : tx.slot = nextSlot state wallet := by
  obtain ⟨field, rest, sender, rfl, hsender, hwallet, hnonce⟩ := hfrom
  simp only [transferOf, coded, bind_eq_ok, mapError_eq_ok, okOr_eq_ok, pure_eq_ok] at h
  obtain ⟨field', hfield, sender', hsender', _, _, _, _, _, _, _, _, _, _, wallet', hwallet', nonce,
    hnonce', rfl⟩ := h
  have hsame : field = field' := Option.some.inj hfield
  rw [← hsame, hsender] at hsender'
  obtain rfl := Option.some.inj hsender'
  obtain rfl := Option.some.inj (hwallet.symm.trans hwallet')
  rw [← hsame, hnonce] at hnonce'
  obtain rfl := Except.ok.inj hnonce'
  rfl

lemma sendTransaction_of_add {state : RpcState} {params : List Param} {tx : Transaction}
    {result : Result Unit} {pool : Mempool} (htx : transferOf state params = .ok tx)
    (hadd : state.pool.add tx = (result, pool)) :
    sendTransaction state params
      = (coded (-32000) (result.map fun _ => "0x" ++ tx.id), { state with pool }) := by
  rw [sendTransaction, htx]
  dsimp only
  rw [hadd]
  cases result <;> rfl

/-- How a request is served: it is malformed, or its transfer is refused by the pool, or taken. -/
lemma send_cases (x : Session) (params : List Param) :
    ((∃ e, transferOf x.state params = .error e) ∧ x.send params = x) ∨
    ∃ tx, transferOf x.state params = .ok tx ∧
      (x.send params = x ∨ ∃ pool, x.state.pool.add tx = (.ok (), pool) ∧
        x.send params = ⟨{ x.state with pool }, x.accepted ++ [tx]⟩) := by
  cases htx : transferOf x.state params with
  | error e =>
    refine .inl ⟨⟨e, rfl⟩, ?_⟩
    simp only [Session.send, sendTransaction, htx]
  | ok tx =>
    refine .inr ⟨tx, rfl, ?_⟩
    cases hadd : x.state.pool.add tx with
    | mk result pool =>
      cases result with
      | error e =>
        rw [Mempool.add_eq_error hadd] at hadd
        left
        simp only [Session.send, sendTransaction, htx, hadd]
      | ok =>
        refine .inr ⟨pool, rfl, ?_⟩
        simp only [Session.send, sendTransaction, htx, hadd]

/-- What the requests of one account do to the server: only the pool changes, all transfers that
are taken have the account's next slot, the pool holds one of them, and nothing else has come to
that slot. -/
structure Follows (start : RpcState) (slot : String × UInt64) (x : Session) : Prop where
  chain : x.state.chain = start.chain
  wallets : x.state.wallets = start.wallets
  slots : ∀ tx ∈ x.accepted, tx.slot = slot
  untouched : x.accepted = [] → x.state = start
  held : x.accepted ≠ [] → ∃ tx ∈ x.accepted, tx ∈ x.state.pool.transactions
  origin : ∀ tx ∈ x.state.pool.transactions, tx.slot = slot →
    tx ∈ x.accepted ∨ tx ∈ start.pool.transactions

lemma Follows.nextSlot {start : RpcState} {wallet : AccountWallet} {slot : String × UInt64}
    {x : Session} (h : Follows start slot x) : nextSlot x.state wallet = nextSlot start wallet := by
  rw [Rpc.nextSlot, h.chain, Rpc.nextSlot]

/-- A request of the account goes on like that. -/
lemma Follows.send {start : RpcState} {wallet : AccountWallet} {x : Session}
    (h : Follows start (Rpc.nextSlot start wallet) x) {params : List Param}
    (hfrom : FromAccount start.wallets wallet params) :
    Follows start (Rpc.nextSlot start wallet) (x.send params) := by
  obtain ⟨_, hsame⟩ | ⟨tx, htx, hsame | ⟨pool, hadd, hsend⟩⟩ := send_cases x params
  · rw [hsame]
    exact h
  · rw [hsame]
    exact h
  · have hslot : tx.slot = Rpc.nextSlot start wallet := by
      rw [slot_of_transferOf (h.wallets ▸ hfrom) htx, h.nextSlot]
    obtain ⟨hin, horigin⟩ := Mempool.add_eq_ok hadd
    rw [hsend]
    constructor
    · exact h.chain
    · exact h.wallets
    · intro other hother
      rcases List.mem_append.mp hother with hmem | hmem
      · exact h.slots other hmem
      · rw [List.mem_singleton.mp hmem]
        exact hslot
    · exact fun hnone => absurd hnone (List.append_ne_nil_of_right_ne_nil _ (List.cons_ne_nil _ _))
    · exact fun _ => ⟨tx, List.mem_append_right _ (List.mem_singleton_self _), hin⟩
    · intro other hother hsame
      rcases horigin other hother with hmem | rfl
      · exact (h.origin other hmem hsame).imp_left fun hin => List.mem_append_left _ hin
      · exact .inl (List.mem_append_right _ (List.mem_singleton_self _))

/-- Every sequence of requests of the account goes like that. -/
lemma follows_serve {start : RpcState} {wallet : AccountWallet} {requests : List (List Param)}
    (hfrom : ∀ params ∈ requests, FromAccount start.wallets wallet params) :
    Follows start (Rpc.nextSlot start wallet) (serve start requests) := by
  induction requests using List.reverseRecOn with
  | nil =>
    exact ⟨rfl, rfl, List.forall_mem_nil _, fun _ => rfl, fun h => absurd rfl h,
      fun tx htx _ => .inr htx⟩
  | append_singleton requests params ih =>
    rw [serve_concat]
    obtain ⟨hrequests, hlast⟩ := List.forall_mem_append.mp hfrom
    exact (ih hrequests).send (hlast params (List.mem_singleton_self _))

omit [Primitives] in
/-- Before the slot is taken nothing of the sequence was taken. -/
lemma Follows.accepted_eq_nil {start : RpcState} {slot : String × UInt64} {x : Session}
    (h : Follows start slot x) (hfree : ∀ waiting ∈ x.state.pool.transactions, waiting.slot ≠ slot) :
    x.accepted = [] := by
  by_contra hne
  obtain ⟨tx, htaken, hheld⟩ := h.held hne
  exact hfree tx hheld (h.slots tx htaken)

/-- The pool does not matter for the checks of a request. -/
lemma transferOf_pool (state : RpcState) (pool : Mempool) (params : List Param) :
    transferOf { state with pool } params = transferOf state params := rfl

lemma Follows.transferOf {start : RpcState} {slot : String × UInt64} {x : Session}
    (h : Follows start slot x) (params : List Param) :
    transferOf x.state params = transferOf start params := by
  have hstate : x.state = { start with pool := x.state.pool } := by
    rw [← h.chain, ← h.wallets]
  rw [hstate, transferOf_pool start]

/-! ## Collisions -/

/-- The nonces of a sequence do not collide: the nonce of a valid request is not that of a transfer
taken earlier in the sequence, all transfers that were taken are still in the pool, and a request
is refused only if it would have been refused at the start. -/
structure Collisionless (start : RpcState) (requests : List (List Param)) : Prop where
  fresh : ∀ done params rest, requests = done ++ params :: rest → ∀ tx,
    transferOf (serve start done).state params = .ok tx →
      ∀ earlier ∈ (serve start done).accepted, earlier.nonce ≠ tx.nonce
  held : ∀ done rest, requests = done ++ rest →
    ∀ tx ∈ (serve start done).accepted, tx ∈ (serve start done).state.pool.transactions
  refused : ∀ done params rest, requests = done ++ params :: rest →
    (∃ e, (sendTransaction (serve start done).state params).1 = .error e) →
      ∃ e, (sendTransaction start params).1 = .error e

/-- Whenever a valid request comes, no transaction of the account waits under its next nonce. -/
def FindsSlotFree (start : RpcState) (wallet : AccountWallet) (requests : List (List Param)) :
    Prop :=
  ∀ done params rest, requests = done ++ params :: rest →
    (∃ tx, transferOf (serve start done).state params = .ok tx) →
      ∀ waiting ∈ (serve start done).state.pool.transactions,
        waiting.slot ≠ nextSlot (serve start done).state wallet

/-- **The nonces of a sequence do not collide when each valid request finds its slot free.** For
every state and every sequence of requests without a nonce from one account: if no transaction of
the account waits under its next nonce whenever a valid request comes, the nonces of the sequence
do not collide. If none waits at the start, they collide otherwise. -/
theorem nonces_collisionless_iff (start : RpcState) (wallet : AccountWallet)
    (requests : List (List Param))
    (hfrom : ∀ params ∈ requests, FromAccount start.wallets wallet params) :
    (FindsSlotFree start wallet requests → Collisionless start requests) ∧
    ((∀ waiting ∈ start.pool.transactions, waiting.slot ≠ nextSlot start wallet) →
      (Collisionless start requests ↔ FindsSlotFree start wallet requests)) := by
  have hall : ∀ done rest, requests = done ++ rest →
      Follows start (nextSlot start wallet) (serve start done) := by
    rintro done rest rfl
    exact follows_serve fun params hparams => hfrom params (List.mem_append_left _ hparams)
  -- nothing was taken before a valid request that finds its slot free
  have hnone : FindsSlotFree start wallet requests → ∀ done params rest,
      requests = done ++ params :: rest → ∀ tx,
      transferOf (serve start done).state params = .ok tx → (serve start done).accepted = [] := by
    intro hfree done params rest hsplit tx htx
    have hfollows := hall done _ hsplit
    apply hfollows.accepted_eq_nil
    rw [← hfollows.nextSlot]
    exact hfree done params rest hsplit ⟨tx, htx⟩
  have hgood : FindsSlotFree start wallet requests → Collisionless start requests := by
    intro hfree
    constructor
    · intro done params rest hsplit tx htx earlier hearlier
      rw [hnone hfree done params rest hsplit tx htx] at hearlier
      cases hearlier
    · intro done
      induction done using List.reverseRecOn with
      | nil => exact fun _ _ => List.forall_mem_nil _
      | append_singleton done params ih =>
        intro rest hsplit
        rw [List.append_assoc, List.singleton_append] at hsplit
        rw [serve_concat]
        obtain ⟨_, hsame⟩ | ⟨tx, htx, hsame | ⟨pool, hadd, hsend⟩⟩ :=
          send_cases (serve start done) params
        · rw [hsame]
          exact ih _ hsplit
        · rw [hsame]
          exact ih _ hsplit
        · rw [hsend, hnone hfree done params rest hsplit tx htx]
          intro taken htaken
          rw [List.mem_singleton.mp htaken]
          exact (Mempool.add_eq_ok hadd).1
    · rintro done params rest hsplit ⟨e, herror⟩
      have hfollows := hall done _ hsplit
      cases htx : transferOf (serve start done).state params with
      | error e' =>
        rw [hfollows.transferOf] at htx
        refine ⟨e', ?_⟩
        rw [sendTransaction, htx]
      | ok tx =>
        rw [hfollows.untouched (hnone hfree done params rest hsplit tx htx)] at herror
        exact ⟨e, herror⟩
  refine ⟨hgood, fun hstart => ⟨fun hcollisionless => ?_, hgood⟩⟩
  rintro done params rest hsplit ⟨tx, htx⟩ waiting hwaiting hslot
  have hfollows := hall done _ hsplit
  have hfrom' := hfrom params (hsplit ▸ List.mem_append_right _ List.mem_cons_self)
  rw [hfollows.nextSlot] at hslot
  rcases hfollows.origin waiting hwaiting hslot with htaken | hold
  · have htxSlot := slot_of_transferOf (hfollows.wallets ▸ hfrom') htx
    rw [hfollows.nextSlot, ← hslot] at htxSlot
    exact hcollisionless.fresh done params rest hsplit tx htx waiting htaken
      (congrArg Prod.snd htxSlot).symm
  · exact hstart waiting hold hslot

end Rpc

end

/-! ### The same payment twice -/

namespace KeyOne

attribute [local instance] primitives

/-- The wallet of the private key 1, with its signature of the payment below. -/
def wallet : AccountWallet where
  publicKey := point
  sign _ := beBytes 32 0xea1708d812c67b5b026d4bc1bc5e39ba3e0df8830fe9d121bce563f6bd74509a ++
    beBytes 32 0x5bb80b6dabfb5528fef6524603dcca13f8b3430241fa0d5c7694c16fe11a6d3e

def account : String := "0x7e5f4552091a69125d5dfcb7b8c2659029395bdf"

/-- 100 coins to an address. -/
def request : List Rpc.Param :=
  [.object fun field =>
    if field = "from" then some account
    else if field = "to" then some "0x0202020202020202020202020202020202020202"
    else if field = "value" then some "0x64"
    else none]

/-- The account has coins, and nothing waits. -/
def server : Rpc.RpcState where
  chain := Blockchain.withChainId 31337 [(account, 1000000)]
  pool := Mempool.default
  wallets := HashMap.ofList [(account, wallet)]

def payment : Transaction :=
  wallet.signTransfer "0x0202020202020202020202020202020202020202" (BitVec.ofNat 128 100) 21000 0

lemma lookup_wallets (address : String) :
    server.wallets.lookup address = if address = account then some wallet else none :=
  HashMap.lookup_insert ∅ account address wallet

lemma normalizeAddress_account : Rpc.normalizeAddress account = account := by decide

lemma fromAccount_request : Rpc.FromAccount server.wallets wallet request := by
  refine ⟨_, [], account, rfl, rfl, ?_, rfl⟩
  rw [normalizeAddress_account, lookup_wallets, if_pos rfl]

lemma transferOf_request : Rpc.transferOf server request = .ok payment := by
  have hreceiver : Rpc.resolveLedgerAddress server "0x0202020202020202020202020202020202020202"
      = "0x0202020202020202020202020202020202020202" := by
    have hself : Rpc.normalizeAddress "0x0202020202020202020202020202020202020202"
        = "0x0202020202020202020202020202020202020202" := by decide
    rw [Rpc.resolveLedgerAddress, hself, lookup_wallets, if_neg (by decide)]
    rfl
  have hwallet : server.wallets.lookup (Rpc.normalizeAddress account) = some wallet := by
    rw [normalizeAddress_account, lookup_wallets, if_pos rfl]
  simp only [Rpc.transferOf, Rpc.coded, bind_eq_ok, mapError_eq_ok, okOr_eq_ok, pure_eq_ok]
  refine ⟨_, rfl, account, rfl, _, rfl, 100, by decide, 1, by decide, 21000, by decide, 21000,
    by decide, wallet, hwallet, 0, rfl, ?_⟩
  rw [hreceiver]
  rfl

/-- The first payment finds its slot free. -/
theorem nonces_collisionless_iff_once : Rpc.Collisionless server [request] := by
  apply (Rpc.nonces_collisionless_iff server wallet [request] ?_).1
  · intro done params rest hsplit _ waiting hwaiting
    have hdone : done = [] := by
      cases done with
      | nil => rfl
      | cons first done =>
        have htail := (List.cons.inj hsplit).2
        exact absurd htail (by simp)
    rw [hdone] at hwaiting
    cases hwaiting
  · exact fun params hparams => List.mem_singleton.mp hparams ▸ fromAccount_request

/-- The node answers the first request with an id and refuses the second as a duplicate. -/
theorem second_payment_refused :
    ∃ hash, (Rpc.sendTransaction server request).1 = .ok hash ∧
      (Rpc.sendTransaction (Rpc.sendTransaction server request).2 request).1
        = .error (-32000, "이미 mempool에 있는 거래입니다.") ∧
      (Rpc.sendTransaction server request).2.pool.transactions = [payment] := by
  have hadd : server.pool.add payment = (.ok (), server.pool.push payment) := by
    apply Mempool.add_of_room (Mempool.exact_withLimits _ _).toIndexed
    · exact Finset.notMem_empty _
    · exact List.forall_mem_nil _
    · decide
    · decide +kernel
  have hfirst := Rpc.sendTransaction_of_add transferOf_request hadd
  have hid : payment.id ∈ (server.pool.push payment).ids := Finset.mem_insert_self _ _
  have hsecond : (server.pool.push payment).add payment
      = (.error "이미 mempool에 있는 거래입니다.", server.pool.push payment) := if_pos hid
  have hsame : Rpc.transferOf { server with pool := server.pool.push payment } request
      = .ok payment := (Rpc.transferOf_pool server _ request).trans transferOf_request
  rw [hfirst]
  refine ⟨_, rfl, ?_, rfl⟩
  rw [Rpc.sendTransaction_of_add hsame hsecond]
  rfl

end KeyOne

end IeumChain
