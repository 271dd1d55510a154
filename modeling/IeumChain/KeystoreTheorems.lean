import IeumChain.Keystore
import IeumChain.Devnet
import Mathlib.Data.List.DropRight

/-!
# What a keystore gives back

A document opens under the password it was sealed with (`unsealed_sealed`). Whatever document has
the tag of a sealed one and opens under whatever password, it is that document in every field that
counts, the password is the same and so is the key (`opened_as_sealed`), or SHA-256 collides at two
inputs that were hashed.

The node's wallet stays the same for ever (`wallet_never_lost`): as long as the keystore is there it
opens under a password that was drawn or given, to the wallet that was shown first, also where
operations fail or the node stops between two of them, while the password is changed too. A change
that succeeds leaves the two files in agreement (`password_changed`).
-/

namespace IeumChain

open Lib

/-- The two files and those that are renamed to them are different. -/
lemma NodeWalletPaths.different {P : Type} (paths : NodeWalletPaths P) :
    paths.keystore ≠ paths.keystoreTmp ∧ paths.keystore ≠ paths.password ∧
      paths.keystore ≠ paths.passwordTmp ∧ paths.password ≠ paths.keystoreTmp ∧
      paths.password ≠ paths.passwordTmp := by
  have h := paths.distinct
  simp only [List.nodup_cons, List.mem_cons, not_or] at h
  exact ⟨h.1.1, h.1.2.1, h.1.2.2.1, Ne.symm h.2.1.1, h.2.2.1.1⟩

variable [Primitives]

namespace KeystoreKind
variable (kind : KeystoreKind)

omit [Primitives] in
lemma decode32_eq_ok {kind : KeystoreKind} {value : String} {bytes : Bytes} :
    kind.decode32 value = .ok bytes ↔ hexDecode value = some bytes ∧ bytes.length = 32 := by
  simp only [decode32, bind_eq_ok, okOr_eq_ok, ensure_eq_ok, pure_eq_ok]
  constructor
  · rintro ⟨_, hbytes, _, hlength, rfl⟩
    exact ⟨hbytes, hlength⟩
  · rintro ⟨hbytes, hlength⟩
    exact ⟨bytes, hbytes, (), hlength, rfl⟩

/-- What a document has to be to open. -/
lemma unsealed_eq_ok {kind : KeystoreKind} {doc : KeystoreDocument} {password : String}
    {secret : Bytes32} : kind.unsealed doc password = .ok secret ↔
      (doc.version = 1 ∧ ¬ doc.kdfRounds < kdfRounds) ∧ ∃ salt nonce ciphertext,
        (hexDecode doc.salt = some salt ∧ salt.length = 32) ∧
        (hexDecode doc.nonce = some nonce ∧ nonce.length = 32) ∧
        hexDecode doc.ciphertext = some ciphertext ∧
        hexDecode doc.mac = some (kind.mac (kind.deriveKey password salt doc.kdfRounds.toNat) nonce
          ciphertext) ∧
        kind.crypt ciphertext (kind.deriveKey password salt doc.kdfRounds.toNat) nonce
          = secret.val := by
  have hmac : ∀ key nonce ciphertext, (kind.mac key nonce ciphertext).length = 32 :=
    fun _ _ _ => (sha256 _).property
  simp only [unsealed, bind_eq_ok, ensure_eq_ok, okOr_eq_ok, decode32_eq_ok]
  constructor
  · rintro ⟨_, hversion, salt, hsalt, nonce, hnonce, ciphertext, hciphertext, tag, htag, _, heq, h⟩
    refine ⟨hversion, salt, nonce, ciphertext, hsalt, hnonce, hciphertext, heq ▸ htag.1, ?_⟩
    split at h
    · exact congrArg Subtype.val (Except.ok.inj h)
    · cases h
  · rintro ⟨hversion, salt, nonce, ciphertext, hsalt, hnonce, hciphertext, htag, hplain⟩
    refine ⟨(), hversion, salt, hsalt, nonce, hnonce, ciphertext, hciphertext, _,
      ⟨htag, hmac _ _ _⟩, (), rfl, ?_⟩
    rw [dif_pos (by rw [hplain]; exact secret.property)]
    exact congrArg Except.ok (Subtype.ext hplain)

/-- A document opens under the password it was sealed with. -/
theorem unsealed_sealed (address : String) (secret : Bytes32) (password : String)
    (draw : KeystoreDraw) :
    kind.unsealed (kind.sealed address secret.val password draw) password = .ok secret := by
  refine unsealed_eq_ok.mpr ⟨⟨rfl, UInt32.lt_irrefl _⟩, draw.salt.val, draw.nonce.val, _,
    ⟨hexDecode_hexEncode _, draw.salt.property⟩, ⟨hexDecode_hexEncode _, draw.nonce.property⟩,
    hexDecode_hexEncode _, hexDecode_hexEncode _, ?_⟩
  exact Sealing.crypt_crypt sha256 _ _ _ _

/-- What the fields of a document are counts, and not how their digits are written. -/
lemma unsealed_respelled {doc other : KeystoreDocument} (hversion : other.version = doc.version)
    (hrounds : other.kdfRounds = doc.kdfRounds) (hsalt : hexDecode other.salt = hexDecode doc.salt)
    (hnonce : hexDecode other.nonce = hexDecode doc.nonce)
    (hciphertext : hexDecode other.ciphertext = hexDecode doc.ciphertext)
    (hmac : hexDecode other.mac = hexDecode doc.mac) (password : String) :
    kind.unsealed other password = kind.unsealed doc password := by
  simp only [unsealed, decode32, hversion, hrounds, hsalt, hnonce, hciphertext, hmac]

/-! ## Authenticity -/

/-- All that is hashed to check a tag. -/
def hashed (password : String) (salt nonce ciphertext : Bytes) (rounds : ℕ) : List Bytes :=
  Sealing.macInput kind.labels.mac (kind.deriveKey password salt rounds) nonce ciphertext ::
    Sealing.kdfInputs sha256 kind.labels.kdf (textBytes password) salt rounds

/-- **What opens is what was sealed.** A document with the tag of a sealed one that opens, under any
password, has the salt, the nonce, the ciphertext and the rounds of the sealed one, the password is
its password and the key is its key; or SHA-256 has the same value for two different inputs that
were hashed for the two documents. -/
theorem opened_as_sealed (address : String) (secret : Bytes32) (password : String)
    (draw : KeystoreDraw) (doc : KeystoreDocument) (other : String) (opened : Bytes32)
    (htag : hexDecode doc.mac = hexDecode (kind.sealed address secret.val password draw).mac)
    (hopen : kind.unsealed doc other = .ok opened) :
    ∃ salt nonce ciphertext, hexDecode doc.salt = some salt ∧ hexDecode doc.nonce = some nonce ∧
      hexDecode doc.ciphertext = some ciphertext ∧
      ((other = password ∧ opened = secret ∧ salt = draw.salt.val ∧ nonce = draw.nonce.val ∧
        hexEncode ciphertext = (kind.sealed address secret.val password draw).ciphertext ∧
        doc.kdfRounds = kdfRounds) ∨
      Sealing.Collides sha256
        (kind.hashed password draw.salt.val draw.nonce.val
          (kind.crypt secret.val (kind.deriveKey password draw.salt.val kdfRounds.toNat)
            draw.nonce.val) kdfRounds.toNat)
        (kind.hashed other salt nonce ciphertext doc.kdfRounds.toNat)) := by
  obtain ⟨⟨_, hrounds⟩, salt, nonce, ciphertext, ⟨hsalt, hlsalt⟩, ⟨hnonce, hlnonce⟩, hciphertext,
    hmac, hplain⟩ := unsealed_eq_ok.mp hopen
  refine ⟨salt, nonce, ciphertext, hsalt, hnonce, hciphertext, ?_⟩
  have hmany : 200000 ≤ doc.kdfRounds.toNat := UInt32.le_iff_toNat_le.mp (UInt32.not_lt.mp hrounds)
  have hfew := doc.kdfRounds.toNat_lt
  -- equal tags give equal keys
  rw [hmac, sealed, hexDecode_hexEncode] at htag
  have hkeys := Sealing.mac_inj (by unfold deriveKey; rw [Sealing.length_deriveKey,
    Sealing.length_deriveKey]) (draw.nonce.property.trans hlnonce.symm) (Option.some.inj htag).symm
  rcases hkeys with ⟨hkey, rfl, rfl⟩ | hcollides
  · -- equal keys give equal passwords
    have hsame := Sealing.deriveKey_inj (draw.salt.property.trans hlsalt.symm) (by decide)
      (by omega) (by decide) hfew hkey
    rcases hsame with ⟨hpassword, rfl, heq⟩ | hcollides
    · refine .inl ⟨(textBytes_inj.mp hpassword).symm, Subtype.ext ?_, rfl, rfl, rfl,
        UInt32.toNat_inj.mp heq.symm⟩
      rw [← hplain, ← hkey]
      exact Sealing.crypt_crypt sha256 _ _ _ _
    · exact .inr (hcollides.mono (fun _ h => List.mem_cons_of_mem _ h)
        fun _ h => List.mem_cons_of_mem _ h)
  · refine .inr (hcollides.mono ?_ ?_)
    · exact fun x hx => List.mem_singleton.mp hx ▸ List.mem_cons_self
    · exact fun x hx => List.mem_singleton.mp hx ▸ List.mem_cons_self

end KeystoreKind

/-! ## The files of the node's wallet -/

namespace NodeWalletKeystore
variable {P : Type} [DecidableEq P] {paths : NodeWalletPaths P} {keys : KeyTypes}
  {codec : KeystoreCodec} {files after : HashMap P Bytes} {wallet : String}

/-- A file with a wallet of the address, sealed with the password. -/
def Stored (keys : KeyTypes) (codec : KeystoreCodec) (files : HashMap P Bytes) (place : P)
    (wallet password : String) : Prop :=
  ∃ bytes, ∃ seed : Bytes32, ∃ draw, files.lookup place = some bytes ∧
    keys.address seed.val = wallet ∧
    codec.fromSlice bytes = some (kind.sealed wallet seed.val password draw)

/-- The two files that count are as they were. -/
def Unchanged (paths : NodeWalletPaths P) (files after : HashMap P Bytes) : Prop :=
  after.lookup paths.keystore = files.lookup paths.keystore ∧
    after.lookup paths.password = files.lookup paths.password

omit [Primitives] in
lemma Unchanged.refl (files : HashMap P Bytes) : Unchanged paths files files := ⟨rfl, rfl⟩

omit [Primitives] in
lemma Unchanged.insert (h : Unchanged paths files after) {place : P} (bytes : Bytes)
    (hkeystore : paths.keystore ≠ place) (hpassword : paths.password ≠ place) :
    Unchanged paths files (after.insert place bytes) := by
  unfold Unchanged
  rw [Disk.lookup_insert_of_ne hkeystore, Disk.lookup_insert_of_ne hpassword]
  exact h

omit [Primitives] in
lemma Unchanged.erase (h : Unchanged paths files after) {place : P}
    (hkeystore : paths.keystore ≠ place) (hpassword : paths.password ≠ place) :
    Unchanged paths files (after.erase place) := by
  unfold Unchanged
  rw [Finmap.lookup_erase_ne hkeystore, Finmap.lookup_erase_ne hpassword]
  exact h

/-! ### One part after the other -/

/-- `load` changes nothing, and what it returns has the address of the document. -/
lemma wp_load {place : P} {password : String} {Q : Bytes32 → HashMap P Bytes → Prop}
    {C : HashMap P Bytes → Prop} (hC : C files)
    (hQ : ∀ bytes doc seed, files.lookup place = some bytes → codec.fromSlice bytes = some doc →
      kind.unsealed doc password = .ok seed → keys.address seed.val = doc.address → Q seed files) :
    Disk.wp (load keys codec place password) Q C files := by
  refine Disk.wp_bind (Disk.wp_mapError (Disk.wp_read hC (Disk.wp_lift ?_ fun _ _ => hC)))
  intro seed hseed
  simp only [bind_eq_ok, okOr_eq_ok, ensure_eq_ok, pure_eq_ok] at hseed
  obtain ⟨bytes, hbytes, doc, hdoc, _, hopen, _, haddress, rfl⟩ := hseed
  exact hQ bytes doc _ hbytes hdoc hopen haddress

/-- A document that is stored opens, where nothing fails. -/
lemma Stored.load {place : P} {password : String}
    (h : Stored keys codec files place wallet password) :
    ∃ seed : Bytes32, keys.address seed.val = wallet ∧
      Disk.Reads (load keys codec place password) seed files := by
  obtain ⟨bytes, seed, draw, hbytes, haddress, hdoc⟩ := h
  refine ⟨seed, haddress, Disk.Reads.bind (Disk.Reads.mapError (Disk.Reads.read hbytes))
    (Disk.Reads.lift ?_)⟩
  simp only [bind_eq_ok, okOr_eq_ok, ensure_eq_ok, pure_eq_ok]
  exact ⟨bytes, rfl, _, hdoc, seed, kind.unsealed_sealed _ _ _ _, (), haddress, rfl⟩

/-- `store` replaces the keystore where it returns, and changes nothing where it fails. -/
lemma wp_store (hcodec : codec.Lawful) {seed : Bytes32} {password : String} {draw : KeystoreDraw}
    {Q : Unit → HashMap P Bytes → Prop} {C : HashMap P Bytes → Prop}
    (hC : ∀ after, Unchanged paths files after → C after)
    (hQ : 10 ≤ textLen password → ∀ after,
      Stored keys codec after paths.keystore (keys.address seed.val) password →
      after.lookup paths.password = files.lookup paths.password → Q () after) :
    Disk.wp (store paths keys codec seed password draw) Q C files := by
  obtain ⟨hkeystore, hother, _, hpassword, _⟩ := paths.different
  unfold store
  refine Disk.wp_bind (Disk.wp_lift (fun _ hlong => ?_) fun _ _ => hC _ (.refl _))
  refine Disk.wp_bind (Disk.wp_lift (fun bytes hbytes => ?_) fun _ _ => hC _ (.refl _))
  refine Disk.wp_bind (Disk.wp_createDir (hC _ (.refl _)) ?_)
  have hfresh : Unchanged paths files (files.insert paths.keystoreTmp []) :=
    (Unchanged.refl files).insert _ hkeystore hpassword
  refine Disk.wp_bind (Disk.wp_write (hC _ (.refl _))
    (fun left => hC _ ((Unchanged.refl files).insert left hkeystore hpassword)) ?_)
  refine Disk.wp_bind (Disk.wp_append (hC _ hfresh)
    (fun left => hC _ (hfresh.insert left hkeystore hpassword)) ?_)
  rw [HashMap.lookup_insert_self, Option.getD_some, List.nil_append]
  have hwritten := hfresh.insert bytes hkeystore hpassword
  refine Disk.wp_bind (Disk.wp_syncAll (hC _ hwritten) ?_)
  refine Disk.wp_bind (wp_load (hC _ hwritten) fun found doc again hfound hdoc hopen haddress => ?_)
  split
  · refine Disk.wp_bind (Disk.wp_attempt (Disk.wp_remove (Disk.wp_throw (hC _ hwritten)) ?_))
    exact fun _ _ => Disk.wp_throw (hC _ (hwritten.erase hkeystore hpassword))
  · refine Disk.wp_rename (hC _ hwritten) fun moved hmoved => hQ (ensure_eq_ok.mp hlong) _ ?_ ?_
    · rw [HashMap.lookup_insert_self] at hmoved
      obtain rfl := Option.some.inj hmoved
      exact ⟨bytes, seed, draw, HashMap.lookup_insert_self _ _ _, rfl,
        hcodec.fromSlice _ _ hbytes⟩
    · rw [Disk.lookup_insert_of_ne hother.symm,
        Finmap.lookup_erase_ne hpassword]
      exact hwritten.2

/-! ### The two commands -/

/-- The password that a file has, if it is a text. -/
def passwordIn (files : HashMap P Bytes) (place : P) : List String :=
  ((files.lookup place).bind decodeText).toList.map trim

omit [Primitives] in
lemma wp_readToString {place : P} {Q : String → HashMap P Bytes → Prop}
    {C : HashMap P Bytes → Prop} (hC : C files)
    (hQ : ∀ text, trim text ∈ passwordIn files place → Q text files) :
    Disk.wp (readToString place) Q C files := by
  refine Disk.wp_bind (Disk.wp_read hC (Disk.wp_lift ?_ fun _ _ => hC))
  intro text htext
  simp only [bind_eq_ok, okOr_eq_ok] at htext
  obtain ⟨bytes, hbytes, hdecode⟩ := htext
  refine hQ text ?_
  rw [passwordIn, hbytes, Option.bind_some, hdecode]
  exact List.mem_singleton_self _

/-- The keystore has a wallet of the address under one of the passwords, and there is a password. -/
structure Keeps (paths : NodeWalletPaths P) (keys : KeyTypes) (codec : KeystoreCodec)
    (wallet : String) (passwords : List String) (files : HashMap P Bytes) : Prop where
  stored : ∃ password ∈ passwords, Stored keys codec files paths.keystore wallet password
  password : paths.password ∈ files

namespace Keeps
variable {passwords passwords' : List String}

lemma mono (h : Keeps paths keys codec wallet passwords files)
    (hmore : ∀ password ∈ passwords, password ∈ passwords') :
    Keeps paths keys codec wallet passwords' files := by
  obtain ⟨⟨password, hmem, hstored⟩, hpassword⟩ := h
  exact ⟨⟨password, hmore password hmem, hstored⟩, hpassword⟩

lemma unchanged (h : Keeps paths keys codec wallet passwords files)
    (hsame : Unchanged paths files after) : Keeps paths keys codec wallet passwords after := by
  obtain ⟨⟨password, hmem, bytes, seed, draw, hbytes, hrest⟩, hpassword⟩ := h
  refine ⟨⟨password, hmem, bytes, seed, draw, hsame.1.trans hbytes, hrest⟩, ?_⟩
  rw [← Finmap.lookup_isSome] at hpassword ⊢
  rwa [hsame.2]

/-- Whatever opens has the address of the wallet. -/
lemma address_eq (h : Keeps paths keys codec wallet passwords files) {bytes : Bytes}
    {doc : KeystoreDocument} (hbytes : files.lookup paths.keystore = some bytes)
    (hdoc : codec.fromSlice bytes = some doc) : doc.address = wallet := by
  obtain ⟨⟨_, _, stored, _, _, hstored, _, hsealed⟩, _⟩ := h
  rw [hbytes] at hstored
  obtain rfl := Option.some.inj hstored
  rw [hdoc] at hsealed
  rw [Option.some.inj hsealed]
  rfl

/-- A wallet that is there is loaded, whatever fails. -/
lemma wp_loadOrCreateDefault (h : Keeps paths keys codec wallet passwords files)
    (draw : NodeWalletDraw) : Disk.wp (loadOrCreateDefault paths keys codec draw)
      (fun seed after => keys.address seed.val = wallet ∧ Unchanged paths files after)
      (Unchanged paths files) files := by
  have hsame : Unchanged paths files files := .refl files
  refine Disk.wp_bind (Disk.wp_probe (fun _ => ?_) ?_)
  · refine Disk.wp_bind (Disk.wp_mapError (wp_readToString hsame fun text _ => ?_))
    refine wp_load hsame fun bytes doc seed hbytes hdoc _ haddress => ⟨?_, hsame⟩
    rw [haddress]
    exact h.address_eq hbytes hdoc
  · refine Disk.wp_bind (Disk.wp_probe (fun _ => Disk.wp_throw hsame) ?_)
    -- both files were looked for in vain, but the password is not written over
    refine Disk.wp_bind (Disk.wp_bind (Disk.wp_createDir hsame ?_))
    exact Disk.wp_bind (Disk.wp_mapError (Disk.wp_writeNew hsame
      (fun hnew => absurd h.password hnew) fun hnew => absurd h.password hnew))

/-- The keystore has the wallet under the new password or one of the old ones. -/
lemma wp_changePassword (h : Keeps paths keys codec wallet passwords files) (hcodec : codec.Lawful)
    (old new : String) (draw : KeystoreDraw) :
    Disk.wp (changePassword paths keys codec old new draw)
      (fun _ after => Stored keys codec after paths.keystore wallet new ∧
        after.lookup paths.password = files.lookup paths.password)
      (Keeps paths keys codec wallet (new :: passwords)) files := by
  have hkept : ∀ after, Unchanged paths files after →
      Keeps paths keys codec wallet (new :: passwords) after := fun after hsame =>
    (h.unchanged hsame).mono fun _ hmem => List.mem_cons_of_mem _ hmem
  refine Disk.wp_bind (wp_load (hkept _ (.refl _)) fun bytes doc seed hbytes hdoc _ haddress => ?_)
  have hwallet : keys.address seed.val = wallet := haddress.trans (h.address_eq hbytes hdoc)
  refine Disk.wp_bind (wp_store hcodec hkept fun _ after hstored hpassword => ?_)
  rw [hwallet] at hstored
  have hnew : Keeps paths keys codec wallet (new :: passwords) after := by
    refine ⟨⟨new, List.mem_cons_self, hstored⟩, ?_⟩
    have hthere := h.password
    rw [← Finmap.lookup_isSome] at hthere ⊢
    rwa [hpassword]
  refine Disk.wp_bind (wp_load hnew fun _ _ again _ _ _ _ => ?_)
  exact Disk.wp_lift (fun _ _ => ⟨hstored, hpassword⟩) fun _ _ => hnew

/-- The command leaves the wallet under a password that it read, or one from before. Where it
returns, the two files agree. -/
lemma wp_runChangePassword (h : Keeps paths keys codec wallet passwords files)
    (hcodec : codec.Lawful) (newPasswordFile : P) (draw undo : KeystoreDraw) :
    Disk.wp (runChangePassword paths keys codec newPasswordFile draw undo)
      (fun _ after => ∃ new ∈ passwordIn files newPasswordFile,
        Stored keys codec after paths.keystore wallet new ∧
          after.lookup paths.password = some (textBytes new))
      (Keeps paths keys codec wallet
        (passwords ++ passwordIn files paths.password ++ passwordIn files newPasswordFile))
      files := by
  obtain ⟨_, hother, hkeystore, _, hpassword⟩ := paths.different
  set known := passwords ++ passwordIn files paths.password ++ passwordIn files newPasswordFile
    with hknown
  have hold : ∀ password ∈ passwords, password ∈ known := fun password hmem => by
    simp only [hknown, List.mem_append]
    exact .inl (.inl hmem)
  have hfirst : Keeps paths keys codec wallet known files := h.mono hold
  refine Disk.wp_bind (Disk.wp_mapError (wp_readToString hfirst fun oldText holdText => ?_))
  refine Disk.wp_bind (Disk.wp_mapError (wp_readToString hfirst fun newText hnewText => ?_))
  have hread : ∀ password ∈ trim newText :: passwords, password ∈ known := by
    rw [List.forall_mem_cons]
    refine ⟨?_, hold⟩
    simp only [hknown, List.mem_append]
    exact .inr hnewText
  refine Disk.wp_bind (Disk.wp_mono (h.wp_changePassword hcodec (trim oldText) (trim newText) draw)
    ?_ fun _ hafter => hafter.mono hread)
  rintro _ changed ⟨hstored, hsame⟩
  have hchanged : Keeps paths keys codec wallet known changed := by
    refine ⟨⟨_, hread _ List.mem_cons_self, hstored⟩, ?_⟩
    have hthere := h.password
    rw [← Finmap.lookup_isSome] at hthere ⊢
    rwa [hsame]
  have hundo : ∀ after, Keeps paths keys codec wallet known after → ∀ e : String, Disk.wp
      (Disk.attempt (changePassword paths keys codec (trim newText) (trim oldText) undo) >>=
        fun _ => (throw s!"암호 파일 교체 실패로 keystore를 기존 암호로 복원했습니다: {e}" : DiskM P Unit))
      (fun _ after => ∃ new ∈ passwordIn files newPasswordFile,
        Stored keys codec after paths.keystore wallet new ∧
          after.lookup paths.password = some (textBytes new))
      (Keeps paths keys codec wallet known) after := by
    intro after hafter e
    have hmem : trim oldText ∈ known := by
      simp only [hknown, List.mem_append]
      exact .inl (.inr holdText)
    refine Disk.wp_bind (Disk.wp_attempt (Disk.wp_mono
      (hafter.wp_changePassword hcodec (trim newText) (trim oldText) undo) ?_ ?_))
    · rintro _ undone ⟨hback, hsame'⟩
      refine Disk.wp_throw ⟨⟨_, hmem, hback⟩, ?_⟩
      have hthere := hafter.password
      rw [← Finmap.lookup_isSome] at hthere ⊢
      rwa [hsame']
    · exact fun undone hundone => Disk.wp_throw (hundone.mono fun password hpassword =>
        (List.mem_cons.mp hpassword).elim (fun heq => heq ▸ hmem) id)
  -- the password is replaced last
  refine Disk.wp_recover ?_
  have hstep : ∀ {now : HashMap P Bytes}, Unchanged paths changed now → ∀ bytes,
      Unchanged paths changed (now.insert paths.passwordTmp bytes) := fun hnow bytes =>
    hnow.insert bytes hkeystore hpassword
  have hfail : ∀ now, Unchanged paths changed now → _ := fun now hnow =>
    hundo now (hchanged.unchanged hnow)
  have hfresh := hstep (Unchanged.refl changed) []
  refine Disk.wp_bind (Disk.wp_write (hfail _ (.refl _))
    (fun left => hfail _ (hstep (.refl _) left)) ?_)
  refine Disk.wp_bind (Disk.wp_append (hfail _ hfresh) (fun left => hfail _ (hstep hfresh left)) ?_)
  rw [HashMap.lookup_insert_self, Option.getD_some, List.nil_append]
  have hwritten := hstep hfresh (textBytes (trim newText))
  refine Disk.wp_bind (Disk.wp_syncAll (hfail _ hwritten) ?_)
  refine Disk.wp_rename (hfail _ hwritten) fun bytes hbytes => ⟨trim newText, hnewText, ?_, ?_⟩
  · obtain ⟨stored, seed, sealed, hlookup, hrest⟩ := hstored
    refine ⟨stored, seed, sealed, ?_, hrest⟩
    rw [Disk.lookup_insert_of_ne hother, Finmap.lookup_erase_ne hkeystore, hwritten.1, hlookup]
  · rw [HashMap.lookup_insert_self] at hbytes ⊢
    exact hbytes.symm

end Keeps

/-! ### Without a keystore -/

section
variable (hmissing : paths.keystore ∉ files)
include hmissing

omit [Primitives] in
lemma Unchanged.missing (h : Unchanged paths files after) : paths.keystore ∉ after := by
  rw [← Finmap.lookup_eq_none] at hmissing ⊢
  rw [h.1, hmissing]

lemma load_missing {password : String} {Q : Bytes32 → HashMap P Bytes → Prop} :
    Disk.wp (load keys codec paths.keystore password) Q (Unchanged paths files) files :=
  wp_load (.refl files) fun _ _ _ hbytes _ _ _ =>
    absurd (Finmap.mem_of_lookup_eq_some hbytes) hmissing

lemma runChangePassword_missing {newPasswordFile : P} {draw undo : KeystoreDraw} :
    Disk.wp (runChangePassword paths keys codec newPasswordFile draw undo) (fun _ _ => False)
      (Unchanged paths files) files := by
  have hsame : Unchanged paths files files := .refl files
  refine Disk.wp_bind (Disk.wp_mapError (wp_readToString hsame fun _ _ => ?_))
  refine Disk.wp_bind (Disk.wp_mapError (wp_readToString hsame fun _ _ => ?_))
  exact Disk.wp_bind (Disk.wp_bind (load_missing hmissing))

/-- Where a password is left without a keystore, nothing is made. -/
lemma blocked_loadOrCreateDefault (hpassword : paths.password ∈ files) (draw : NodeWalletDraw) :
    Disk.wp (loadOrCreateDefault paths keys codec draw) (fun _ _ => False)
      (Unchanged paths files) files := by
  have hsame : Unchanged paths files files := .refl files
  refine Disk.wp_bind (Disk.wp_probe (fun hthere => absurd hthere hmissing) ?_)
  refine Disk.wp_bind (Disk.wp_probe (fun _ => Disk.wp_throw hsame) ?_)
  refine Disk.wp_bind (Disk.wp_bind (Disk.wp_createDir hsame ?_))
  exact Disk.wp_bind (Disk.wp_mapError (Disk.wp_writeNew hsame
    (fun hnew => absurd hpassword hnew) fun hnew => absurd hpassword hnew))

/-- A new wallet is kept under the password that was drawn. -/
lemma wp_createDefault (hcodec : codec.Lawful) (draw : NodeWalletDraw) :
    Disk.wp (createDefault paths keys codec draw)
      (fun seed after => Keeps paths keys codec (keys.address seed.val)
        [hexEncode draw.password.val] after)
      (fun after => paths.keystore ∉ after) files := by
  obtain ⟨_, hother, _, _, _⟩ := paths.different
  have hkeep : ∀ {now : HashMap P Bytes}, paths.keystore ∉ now → ∀ bytes,
      paths.keystore ∉ now.insert paths.password bytes := by
    intro now hnow bytes
    rw [← Finmap.lookup_eq_none, Disk.lookup_insert_of_ne hother, Finmap.lookup_eq_none]
    exact hnow
  have hfresh := hkeep hmissing []
  -- the password is written first
  refine Disk.wp_bind (Disk.wp_bind (Disk.wp_createDir hmissing ?_))
  refine Disk.wp_bind (Disk.wp_mapError (Disk.wp_writeNew hmissing
    (fun _ left => hkeep hmissing left) fun _ => ?_))
  refine Disk.wp_bind (Disk.wp_append hfresh (fun left => hkeep hfresh left) ?_)
  rw [HashMap.lookup_insert_self, Option.getD_some, List.nil_append]
  set written := (files.insert paths.password []).insert paths.password
    (textBytes (hexEncode draw.password.val)) with hwritten
  have hmissing' : paths.keystore ∉ written := hkeep hfresh _
  refine Disk.wp_syncAll hmissing' (Disk.wp_bind (Disk.wp_recover (wp_store hcodec ?_ ?_)))
  · intro after hsame e
    have hnow := hsame.missing hmissing'
    refine Disk.wp_bind (Disk.wp_attempt (Disk.wp_remove (Disk.wp_throw hnow) fun _ _ =>
      Disk.wp_throw ?_))
    rw [← Finmap.lookup_eq_none, Finmap.lookup_erase_ne hother, Finmap.lookup_eq_none]
    exact hnow
  · intro _ after hstored hsame
    refine Disk.wp_pure ⟨⟨_, List.mem_singleton_self _, hstored⟩, ?_⟩
    rw [← Finmap.lookup_isSome, hsame, hwritten, HashMap.lookup_insert_self]
    rfl

/-- At most a wallet is made, which is kept then. -/
lemma wp_loadOrCreateDefault (hcodec : codec.Lawful) (draw : NodeWalletDraw) :
    Disk.wp (loadOrCreateDefault paths keys codec draw)
      (fun seed after => Keeps paths keys codec (keys.address seed.val)
        [hexEncode draw.password.val] after)
      (fun after => paths.keystore ∉ after) files := by
  by_cases hpassword : paths.password ∈ files
  · exact Disk.wp_mono (blocked_loadOrCreateDefault hmissing hpassword draw) (fun _ _ h => h.elim)
      fun _ hsame => hsame.missing hmissing
  · refine Disk.wp_bind (Disk.wp_probe (fun hthere => absurd hthere hmissing) ?_)
    refine Disk.wp_bind (Disk.wp_probe (fun _ => Disk.wp_throw hmissing) ?_)
    exact wp_createDefault hmissing hcodec draw

end

/-! ### Runs -/

/-- What happens to the files: a command, during which operations fail as given, or another program
that writes or removes a file. -/
inductive Event (paths : NodeWalletPaths P) where
  | start (draw : NodeWalletDraw) (faults : ℕ → Option Fault)
  | changePassword (newPasswordFile : P) (draw undo : KeystoreDraw) (faults : ℕ → Option Fault)
  | other (place : P) (bytes : Option Bytes)
      (hother : paths.keystore ≠ place ∧ paths.password ≠ place)

/-- The files, the addresses of the wallets that were returned, and the passwords that were drawn or
read. -/
structure Install (P : Type) where
  files : HashMap P Bytes
  shown : List String
  passwords : List String

/-- The address of a wallet, if there is one. -/
def shownBy (keys : KeyTypes) : Result Bytes32 → List String
  | .ok seed => [keys.address seed.val]
  | .error _ => []

variable (keys codec) in
/-- The state after an event. -/
def Install.step (s : Install P) : Event paths → Install P
  | .start draw faults =>
    let done := Disk.runOn (loadOrCreateDefault paths keys codec draw) faults s.files
    { files := done.2
      shown := s.shown ++ shownBy keys done.1
      passwords := s.passwords ++ [hexEncode draw.password.val] }
  | .changePassword newPasswordFile draw undo faults =>
    { files := (Disk.runOn (runChangePassword paths keys codec newPasswordFile draw undo) faults
        s.files).2
      shown := s.shown
      passwords := s.passwords ++ passwordIn s.files paths.password
        ++ passwordIn s.files newPasswordFile }
  | .other place bytes _ =>
    { s with files := match bytes with
        | some bytes => s.files.insert place bytes
        | none => s.files.erase place }

/-- A wallet was never made, or there is one, the one that was shown. -/
def Install.One (paths : NodeWalletPaths P) (keys : KeyTypes) (codec : KeystoreCodec)
    (s : Install P) : Prop :=
  (paths.keystore ∉ s.files ∧ s.shown = []) ∨
    ∃ wallet, Keeps paths keys codec wallet s.passwords s.files ∧ ∀ a ∈ s.shown, a = wallet

lemma Install.One.step (hcodec : codec.Lawful) {s : Install P} (h : s.One paths keys codec)
    (e : Event paths) : (s.step keys codec e).One paths keys codec := by
  cases e with
  | start draw faults =>
    unfold Install.step
    rcases h with ⟨hmissing, hshown⟩ | ⟨wallet, hkeeps, hshown⟩
    · -- no keystore yet: a start that ends well makes one, and its wallet is the first one shown
      obtain ⟨hok, herror⟩ :=
        Disk.wp_runOn (wp_loadOrCreateDefault hmissing hcodec draw) faults
      cases hdone : (Disk.runOn (loadOrCreateDefault paths keys codec draw) faults s.files).1 with
      | error e =>
        refine .inl ⟨herror e hdone, ?_⟩
        simp only [hdone, hshown, shownBy, List.append_nil]
      | ok seed =>
        refine .inr ⟨keys.address seed.val, (hok seed hdone).mono fun _ hmem =>
          List.mem_append_right _ hmem, ?_⟩
        simp only [hdone, hshown, shownBy, List.nil_append]
        exact fun a ha => List.mem_singleton.mp ha
    · -- the keystore is there: the start reads it, and makes no other
      obtain ⟨hok, herror⟩ := Disk.wp_runOn (hkeeps.wp_loadOrCreateDefault draw) faults
      have hmore : ∀ {after : HashMap P Bytes}, Unchanged paths s.files after →
          Keeps paths keys codec wallet (s.passwords ++ [hexEncode draw.password.val]) after :=
        fun hsame => (hkeeps.unchanged hsame).mono fun _ hmem => List.mem_append_left _ hmem
      cases hdone : (Disk.runOn (loadOrCreateDefault paths keys codec draw) faults s.files).1 with
      | error e =>
        refine .inr ⟨wallet, hmore (herror e hdone), ?_⟩
        simp only [hdone, shownBy, List.append_nil]
        exact hshown
      | ok seed =>
        obtain ⟨haddress, hsame⟩ := hok seed hdone
        refine .inr ⟨wallet, hmore hsame, ?_⟩
        simp only [hdone, shownBy, List.mem_append, List.mem_singleton]
        rintro a (ha | rfl)
        · exact hshown a ha
        · exact haddress
  | changePassword newPasswordFile draw undo faults =>
    unfold Install.step
    rcases h with ⟨hmissing, hshown⟩ | ⟨wallet, hkeeps, hshown⟩
    · -- without a keystore the command fails, and leaves the disk without one
      obtain ⟨hok, herror⟩ := Disk.wp_runOn
        (@runChangePassword_missing _ _ _ paths keys codec _ hmissing newPasswordFile draw undo)
        faults
      refine .inl ⟨?_, hshown⟩
      cases hdone : (Disk.runOn (runChangePassword paths keys codec newPasswordFile draw undo)
          faults s.files).1 with
      | error e => exact (herror e hdone).missing hmissing
      | ok _ => exact (hok () hdone).elim
    · -- the wallet is kept under the new password or the old one
      obtain ⟨hok, herror⟩ := Disk.wp_runOn
        (hkeeps.wp_runChangePassword hcodec newPasswordFile draw undo) faults
      refine .inr ⟨wallet, ?_, hshown⟩
      cases hdone : (Disk.runOn (runChangePassword paths keys codec newPasswordFile draw undo)
          faults s.files).1 with
      | error e => exact herror e hdone
      | ok _ =>
        obtain ⟨new, hnew, hstored, hpassword⟩ := hok () hdone
        exact ⟨⟨new, List.mem_append_right _ hnew, hstored⟩, Finmap.mem_of_lookup_eq_some hpassword⟩
  | other place bytes hother =>
    obtain ⟨hkeystore, hpassword⟩ := hother
    have hsame : Unchanged paths s.files (s.step keys codec (.other place bytes
        ⟨hkeystore, hpassword⟩)).files := by
      cases bytes with
      | none => exact (Unchanged.refl s.files).erase hkeystore hpassword
      | some bytes => exact (Unchanged.refl s.files).insert bytes hkeystore hpassword
    rcases h with ⟨hmissing, hshown⟩ | ⟨wallet, hkeeps, hshown⟩
    · exact .inl ⟨hsame.missing hmissing, hshown⟩
    · exact .inr ⟨wallet, hkeeps.unchanged hsame, hshown⟩

/-- The state after events, on a disk without a keystore. -/
def Install.run (keys : KeyTypes) (codec : KeystoreCodec) (files : HashMap P Bytes)
    (events : List (Event paths)) : Install P :=
  events.foldl (Install.step keys codec) ⟨files, [], []⟩

lemma Install.one_run (hcodec : codec.Lawful) (hmissing : paths.keystore ∉ files)
    (events : List (Event paths)) : (Install.run keys codec files events).One paths keys codec :=
  List.foldlRecOn events (motive := Install.One paths keys codec) _ (.inl ⟨hmissing, rfl⟩)
    fun _ h e _ => h.step hcodec e

/-- **The wallet of a node is never lost.** On a disk that had no keystore, all wallets that the
commands ever return have the same address, and the keystore opens to a wallet of this address under
a password that was drawn or read. Any operations of the commands may fail or leave a part of a
write behind, the node may stop at any point, and the password may be changed any number of
times. -/
theorem wallet_never_lost (paths : NodeWalletPaths P) (keys : KeyTypes) (codec : KeystoreCodec)
    (hcodec : codec.Lawful) (files : HashMap P Bytes) (hmissing : paths.keystore ∉ files)
    (events : List (Event paths)) :
    let s := Install.run keys codec files events
    ∃ wallet, (∀ shown ∈ s.shown, shown = wallet) ∧ (s.shown ≠ [] →
      ∃ password ∈ s.passwords, ∃ seed : Bytes32, keys.address seed.val = wallet ∧
        Disk.runOn (load keys codec paths.keystore password) (fun _ => none) s.files
          = (.ok seed, s.files)) := by
  intro s
  rcases Install.one_run hcodec hmissing events with ⟨_, hshown⟩ | ⟨wallet, hkeeps, hshown⟩
  · refine ⟨"", fun a ha => ?_, fun hne => absurd hshown hne⟩
    rw [show s.shown = [] from hshown] at ha
    exact absurd ha List.not_mem_nil
  · obtain ⟨⟨password, hmem, hstored⟩, _⟩ := hkeeps
    obtain ⟨seed, haddress, hreads⟩ := hstored.load
    exact ⟨wallet, hshown, fun _ => ⟨password, hmem, seed, haddress, hreads.runOn⟩⟩

/-! ### Two files that agree -/

omit [Primitives] in
/-- What was trimmed stays as it is. -/
lemma trim_trim (s : String) : trim (trim s) = trim s := by
  have hstart : ∀ l : List Char,
      ((l.dropWhile isWhitespace).rdropWhile isWhitespace).dropWhile isWhitespace
        = (l.dropWhile isWhitespace).rdropWhile isWhitespace := by
    intro l
    rw [List.dropWhile_eq_self_iff]
    intro hlength
    rw [(List.rdropWhile_prefix isWhitespace (l.dropWhile isWhitespace)).getElem hlength]
    exact List.dropWhile_eq_self_iff.mp (List.dropWhile_idempotent _ _) _
  show String.ofList ((((trim s).toList.dropWhile isWhitespace).rdropWhile isWhitespace)) = trim s
  have htrim : (trim s).toList
      = (s.toList.dropWhile isWhitespace).rdropWhile isWhitespace := String.toList_ofList
  rw [htrim, hstart, List.rdropWhile_idempotent, ← htrim, String.ofList_toList]

/-- The password file has the password of the keystore. -/
def Agrees (paths : NodeWalletPaths P) (keys : KeyTypes) (codec : KeystoreCodec) (wallet : String)
    (files : HashMap P Bytes) : Prop :=
  ∃ text, files.lookup paths.password = some (textBytes text) ∧
    Stored keys codec files paths.keystore wallet (trim text)

omit [Primitives] in
lemma reads_readToString {place : P} {text : String}
    (h : files.lookup place = some (textBytes text)) :
    Disk.Reads (readToString place) text files := by
  refine Disk.Reads.bind (Disk.Reads.read h) (Disk.Reads.lift ?_)
  show okOr (decodeText (textBytes text)) _ = .ok text
  rw [decodeText_textBytes]
  rfl

namespace Agrees

lemma unchanged (h : Agrees paths keys codec wallet files) (hsame : Unchanged paths files after) :
    Agrees paths keys codec wallet after := by
  obtain ⟨text, htext, bytes, seed, draw, hbytes, hrest⟩ := h
  exact ⟨text, hsame.2.trans htext, bytes, seed, draw, hsame.1.trans hbytes, hrest⟩

/-- A start on which nothing fails returns the wallet. -/
lemma reads_loadOrCreateDefault (h : Agrees paths keys codec wallet files) (draw : NodeWalletDraw) :
    ∃ seed : Bytes32, keys.address seed.val = wallet ∧
      Disk.Reads (loadOrCreateDefault paths keys codec draw) seed files := by
  obtain ⟨text, htext, hstored⟩ := h
  obtain ⟨seed, haddress, hload⟩ := hstored.load
  obtain ⟨bytes, _, _, hbytes, _⟩ := hstored
  refine ⟨seed, haddress, Disk.Reads.bind
    (Disk.Reads.probe (Finmap.mem_of_lookup_eq_some hbytes)) ?_⟩
  exact Disk.Reads.bind (Disk.Reads.mapError (reads_readToString htext)) hload

end Agrees

/-- Where nothing fails, a wallet is stored under a password that is long enough. -/
lemma returns_store (hcodec : codec.Lawful) {seed : Bytes32} {password : String}
    {draw : KeystoreDraw} {bytes : Bytes} (hlong : 10 ≤ textLen password)
    (hjson : codec.toVecPretty (kind.sealed (keys.address seed.val) seed.val password draw)
      = .ok bytes) :
    Disk.Returns (store paths keys codec seed password draw) (fun _ after =>
      Stored keys codec after paths.keystore (keys.address seed.val) password ∧
        after.lookup paths.password = files.lookup paths.password) files := by
  refine Disk.Returns.of_wp (Q := fun _ _ => True) (C := fun _ => True) ?_
    (wp_store hcodec (fun _ _ => trivial) fun _ _ hstored hsame => ⟨hstored, hsame⟩)
  refine Disk.Returns.bind (Disk.Returns.ensure hlong ?_)
  refine Disk.Returns.bind (Disk.Returns.lift hjson ?_)
  refine Disk.Returns.bind (Disk.Returns.createDir ?_)
  refine Disk.Returns.bind (Disk.Returns.write (Disk.Returns.bind (Disk.Returns.append ?_)))
  rw [HashMap.lookup_insert_self, Option.getD_some, List.nil_append]
  set written := (files.insert paths.keystoreTmp []).insert paths.keystoreTmp bytes with hwritten
  have hlookup : written.lookup paths.keystoreTmp = some bytes := HashMap.lookup_insert_self _ _ _
  have hstored : Stored keys codec written paths.keystoreTmp (keys.address seed.val) password :=
    ⟨bytes, seed, draw, hlookup, rfl, hcodec.fromSlice _ _ hjson⟩
  obtain ⟨again, haddress, hload⟩ := hstored.load
  refine Disk.Returns.bind (Disk.Returns.syncAll (Disk.Returns.bind (hload.mono ?_)))
  rintro _ _ ⟨rfl, rfl⟩
  rw [if_neg (not_not.mpr haddress)]
  exact Disk.Returns.rename hlookup trivial

/-- A first start on which nothing fails makes the wallet that is drawn. -/
lemma returns_createDefault (hcodec : codec.Lawful) (hmissing : paths.keystore ∉ files)
    (hpassword : paths.password ∉ files) {draw : NodeWalletDraw} {bytes : Bytes}
    (hjson : codec.toVecPretty (kind.sealed (keys.address draw.seed.val) draw.seed.val
      (hexEncode draw.password.val) draw.document) = .ok bytes) :
    Disk.Returns (loadOrCreateDefault paths keys codec draw)
      (fun _ => Agrees paths keys codec (keys.address draw.seed.val)) files := by
  have hplain : trim (hexEncode draw.password.val) = hexEncode draw.password.val := by
    refine trim_of_forall fun c hc => ?_
    obtain ⟨n, hn, rfl⟩ := mem_hexEncode hc
    clear hc
    revert n
    decide
  have hlong : 10 ≤ textLen (hexEncode draw.password.val) := by
    rw [textLen_hexEncode, draw.password.property]
    decide
  rw [← Finmap.lookup_eq_none] at hmissing hpassword
  refine Disk.Returns.bind (Disk.Returns.probe ?_)
  rw [hmissing]
  refine Disk.Returns.bind (Disk.Returns.probe ?_)
  rw [hpassword]
  refine Disk.Returns.bind (Disk.Returns.bind (Disk.Returns.createDir ?_))
  refine Disk.Returns.bind (Disk.Returns.mapError (Disk.Returns.writeNew
    (Finmap.lookup_eq_none.mp hpassword) ?_))
  refine Disk.Returns.bind (Disk.Returns.append (Disk.Returns.syncAll ?_))
  rw [HashMap.lookup_insert_self, Option.getD_some, List.nil_append]
  refine Disk.Returns.bind (Disk.Returns.recover ((returns_store hcodec hlong hjson).mono ?_))
  rintro _ after ⟨hstored, hsame⟩
  refine Disk.Returns.pure ⟨hexEncode draw.password.val, ?_, ?_⟩
  · rw [hsame, HashMap.lookup_insert_self]
  · rwa [hplain]

/-- Where nothing fails, a password that is long enough takes the place of the old one. -/
lemma Agrees.returns_runChangePassword (h : Agrees paths keys codec wallet files)
    (hcodec : codec.Lawful) {newPasswordFile : P} {text : String} {draw undo : KeystoreDraw}
    (htext : files.lookup newPasswordFile = some (textBytes text))
    (hlong : 10 ≤ textLen (trim text))
    (hjson : ∀ seed : Bytes32, keys.address seed.val = wallet → ∃ bytes,
      codec.toVecPretty (kind.sealed wallet seed.val (trim text) draw) = .ok bytes) :
    Disk.Returns (runChangePassword paths keys codec newPasswordFile draw undo)
      (fun _ => Agrees paths keys codec wallet) files := by
  obtain ⟨_, hother, hkeystore, _, hpassword⟩ := paths.different
  obtain ⟨old, hold, hstored⟩ := h
  obtain ⟨seed, rfl, hload⟩ := hstored.load
  obtain ⟨bytes, hbytes⟩ := hjson seed rfl
  refine Disk.Returns.bind ((Disk.Reads.mapError (reads_readToString hold)).mono ?_)
  rintro _ _ ⟨rfl, rfl⟩
  refine Disk.Returns.bind ((Disk.Reads.mapError (reads_readToString htext)).mono ?_)
  rintro _ _ ⟨rfl, rfl⟩
  -- the keystore
  refine Disk.Returns.bind (Disk.Returns.bind (hload.mono ?_))
  rintro _ _ ⟨rfl, rfl⟩
  refine Disk.Returns.bind ((returns_store hcodec hlong hbytes).mono ?_)
  rintro _ changed ⟨hchanged, _⟩
  obtain ⟨again, haddress, hagain⟩ := hchanged.load
  refine Disk.Returns.bind (hagain.mono ?_)
  rintro _ _ ⟨rfl, rfl⟩
  refine Disk.Returns.ensure haddress ?_
  -- the password
  refine Disk.Returns.recover (Disk.Returns.bind (Disk.Returns.write ?_))
  refine Disk.Returns.bind (Disk.Returns.append (Disk.Returns.bind (Disk.Returns.syncAll ?_)))
  rw [HashMap.lookup_insert_self, Option.getD_some, List.nil_append]
  refine Disk.Returns.rename (HashMap.lookup_insert_self _ _ _)
    ⟨_, HashMap.lookup_insert_self _ _ _, ?_⟩
  obtain ⟨stored, key, sealed, hlookup, hrest⟩ := hchanged
  rw [trim_trim]
  refine ⟨stored, key, sealed, ?_, hrest⟩
  rw [Disk.lookup_insert_of_ne hother, Finmap.lookup_erase_ne hkeystore,
    Disk.lookup_insert_of_ne hkeystore, Disk.lookup_insert_of_ne hkeystore, hlookup]

/-- The files after a start and a file of another program. -/
lemma Install.files_written {draw : NodeWalletDraw} {faults : ℕ → Option Fault} {place : P}
    {bytes : Bytes} {hother : paths.keystore ≠ place ∧ paths.password ≠ place} :
    (Install.run keys codec files
      [.start draw faults, .other place (some bytes) hother]).files
      = (Disk.runOn (loadOrCreateDefault paths keys codec draw) faults files).2.insert place
        bytes := rfl

/-- After a first start the password can be changed to that of a file. -/
lemma runChangePassword_after_start (hcodec : codec.Lawful) (hmissing : paths.keystore ∉ files)
    (hpassword : paths.password ∉ files) {drawn : NodeWalletDraw} {place : P} {text : String}
    {hother : paths.keystore ≠ place ∧ paths.password ≠ place} {draw undo : KeystoreDraw}
    {first : Bytes} (hfirst : codec.toVecPretty (kind.sealed (keys.address drawn.seed.val)
      drawn.seed.val (hexEncode drawn.password.val) drawn.document) = .ok first)
    (hlong : 10 ≤ textLen (trim text))
    (hsecond : ∀ seed : Bytes32, keys.address seed.val = keys.address drawn.seed.val → ∃ bytes,
      codec.toVecPretty (kind.sealed (keys.address drawn.seed.val) seed.val (trim text) draw)
        = .ok bytes) :
    (Disk.runOn (runChangePassword paths keys codec place draw undo) (fun _ => none)
      (Install.run keys codec files [.start drawn (fun _ => none),
        .other place (some (textBytes text)) hother]).files).1 = .ok () := by
  have hstart : Disk.Returns (loadOrCreateDefault paths keys codec drawn)
      (fun _ => Agrees paths keys codec (keys.address drawn.seed.val)) files :=
    returns_createDefault hcodec hmissing hpassword hfirst
  obtain ⟨_, _, hagrees⟩ := hstart.runOn
  rw [Install.files_written]
  have hthere := hagrees.unchanged ((Unchanged.refl _).insert (textBytes text) hother.1 hother.2)
  have hreturns : Disk.Returns (runChangePassword paths keys codec place draw undo)
      (fun _ => Agrees paths keys codec (keys.address drawn.seed.val)) _ :=
    hthere.returns_runChangePassword hcodec (HashMap.lookup_insert_self _ _ _) hlong hsecond
  obtain ⟨_, hok, _⟩ := hreturns.runOn
  exact hok

/-- **A changed password is the one of the next start.** Where the command returns after a run that
made a wallet, whatever failed in between, a start on which nothing fails returns that wallet. -/
theorem password_changed (paths : NodeWalletPaths P) (keys : KeyTypes) (codec : KeystoreCodec)
    (hcodec : codec.Lawful) (files : HashMap P Bytes) (hmissing : paths.keystore ∉ files)
    (events : List (Event paths)) (newPasswordFile : P) (draw undo : KeystoreDraw)
    (faults : ℕ → Option Fault) (start : NodeWalletDraw) :
    let s := Install.run keys codec files events
    let changed := Disk.runOn (runChangePassword paths keys codec newPasswordFile draw undo) faults
      s.files
    changed.1 = .ok () → ∃ seed : Bytes32, (∀ shown ∈ s.shown, shown = keys.address seed.val) ∧
      Disk.runOn (loadOrCreateDefault paths keys codec start) (fun _ => none) changed.2
        = (.ok seed, changed.2) := by
  intro s changed hok
  rcases Install.one_run hcodec hmissing events with ⟨hnone, _⟩ | ⟨wallet, hkeeps, hshown⟩
  · have hfails := (Disk.wp_runOn (@runChangePassword_missing _ _ _ paths keys codec _ hnone
      newPasswordFile draw undo) faults).1
    exact (hfails () hok).elim
  · obtain ⟨new, hnew, hstored, hpassword⟩ := (Disk.wp_runOn
      (hkeeps.wp_runChangePassword hcodec newPasswordFile draw undo) faults).1 () hok
    have htrim : trim new = new := by
      obtain ⟨text, _, rfl⟩ := List.mem_map.mp hnew
      exact trim_trim text
    have hagrees : Agrees paths keys codec wallet changed.2 := ⟨new, hpassword, by rwa [htrim]⟩
    obtain ⟨seed, haddress, hreads⟩ := hagrees.reads_loadOrCreateDefault start
    exact ⟨seed, fun a ha => (hshown a ha).trans haddress.symm, hreads.runOn⟩

end NodeWalletKeystore

end IeumChain

namespace IeumChain

open Lib

/-! ## A wallet -/

namespace FirstWallet

attribute [local instance] Devnet.primitives

/-- Numbered files. -/
def paths : NodeWalletPaths ℕ where
  names := { display := toString, parent := fun _ => 0 }
  keystore := 11
  keystoreTmp := 12
  password := 13
  passwordTmp := 14
  distinct := by decide

/-- The key of a seed is the seed. -/
def keys : KeyTypes where
  verifyingKey := id
  peerIdOfEncoding bytes := .ok (hexEncode bytes)

def drawn : NodeWalletDraw where
  seed := ⟨List.replicate 32 0x61, rfl⟩
  password := ⟨List.replicate 32 0x62, rfl⟩
  document := ⟨⟨List.replicate 32 0x63, rfl⟩, ⟨List.replicate 32 0xab, rfl⟩⟩

/-- What is drawn for the next password. -/
def redrawn : KeystoreDraw := ⟨⟨List.replicate 32 0x65, rfl⟩, ⟨List.replicate 32 0x66, rfl⟩⟩

/-- The next password, as it stands in a file. -/
def newText : String := "correct horse battery\n"

/-- The document of the wallet under a password. -/
def documentOf (password : String) (draw : KeystoreDraw) : KeystoreDocument :=
  NodeWalletKeystore.kind.sealed (keys.address drawn.seed.val) drawn.seed.val password draw

/-- What is stored at the first start. -/
def document : KeystoreDocument := documentOf (hexEncode drawn.password.val) drawn.document

/-- `to_vec_pretty`, of texts that need no escapes. -/
def pretty (doc : KeystoreDocument) : Bytes :=
  textBytes (String.join ["\x7b\n  \"version\": ", toString doc.version.toNat,
      ",\n  \"address\": \"", doc.address, "\",\n  \"salt\": \""]) ++
    (textBytes doc.salt ++ textBytes (String.join ["\",\n  \"nonce\": \"", doc.nonce,
      "\",\n  \"ciphertext\": \"", doc.ciphertext, "\",\n  \"mac\": \"", doc.mac,
      "\",\n  \"kdf_rounds\": ", toString doc.kdfRounds.toNat, "\n\x7d"]))

deriving instance DecidableEq for KeystoreDocument

/-- The codec on some documents. -/
def codecOf (docs : List KeystoreDocument) : KeystoreCodec where
  toVecPretty doc := if doc ∈ docs then .ok (pretty doc) else .error "not a document"
  fromSlice bytes := docs.find? fun doc => pretty doc = bytes

lemma codecOf_lawful {docs : List KeystoreDocument}
    (hinj : ∀ a ∈ docs, ∀ b ∈ docs, pretty a = pretty b → a = b) : (codecOf docs).Lawful where
  fromSlice := by
    intro doc bytes hjson
    simp only [codecOf] at hjson ⊢
    split at hjson
    next hmem =>
      obtain rfl := Except.ok.inj hjson
      cases hfind : docs.find? fun other => pretty other = pretty doc with
      | none =>
        exact absurd (decide_eq_true rfl) (List.find?_eq_none.mp hfind doc hmem)
      | some other =>
        have hsame := List.find?_some hfind
        rw [hinj other (List.mem_of_find?_eq_some hfind) doc hmem (of_decide_eq_true hsame)]
    next => cases hjson

lemma codecOf_writes {docs : List KeystoreDocument} {doc : KeystoreDocument} (h : doc ∈ docs) :
    (codecOf docs).toVecPretty doc = .ok (pretty doc) := if_pos h

/-- The salt can be read off the text. -/
lemma pretty_inj_salt {password password' : String} {draw draw' : KeystoreDraw}
    (h : pretty (documentOf password draw) = pretty (documentOf password' draw')) :
    draw.salt = draw'.salt := by
  rw [pretty, pretty] at h
  have hrest : textBytes (hexEncode draw.salt.val) ++ _
      = textBytes (hexEncode draw'.salt.val) ++ _ := List.append_cancel_left h
  have hlength : (textBytes (hexEncode draw.salt.val)).length
      = (textBytes (hexEncode draw'.salt.val)).length := by
    show textLen _ = textLen _
    rw [textLen_hexEncode, textLen_hexEncode, draw.salt.property, draw'.salt.property]
  exact Subtype.ext (hexEncode_inj (textBytes_inj.mp (List.append_inj hrest hlength).1))

def codec : KeystoreCodec := codecOf [document, documentOf (trim newText) redrawn]

lemma codec_lawful : codec.Lawful := by
  have hsalts : drawn.document.salt ≠ redrawn.salt := by decide
  refine codecOf_lawful ?_
  simp only [List.mem_cons, List.not_mem_nil, or_false, forall_eq_or_imp, forall_eq]
  exact ⟨⟨fun _ => trivial, fun h => absurd (pretty_inj_salt h) hsalts⟩,
    fun h => absurd (pretty_inj_salt h) hsalts.symm, fun _ => trivial⟩

/-- A first start, and a file with the next password. -/
def installed : List (NodeWalletKeystore.Event paths) :=
  [.start drawn (fun _ => none), .other 5 (some (textBytes newText)) (by decide)]

/-- A first start, a file with the next password, a change to it, and a start whose first operation
fails. -/
def events : List (NodeWalletKeystore.Event paths) :=
  installed ++ [.changePassword 5 redrawn redrawn (fun _ => none), .start drawn
    (fun n => if n = 0 then some ⟨"Interrupted system call", none⟩ else none)]

/-- The wallet of the first start is still there after the change and the start that fails. -/
theorem wallet_never_lost_first :
    ∃ wallet, (∀ shown ∈ (NodeWalletKeystore.Install.run keys codec ∅ events).shown,
      shown = wallet) ∧ ((NodeWalletKeystore.Install.run keys codec ∅ events).shown ≠ [] →
      ∃ password ∈ (NodeWalletKeystore.Install.run keys codec ∅ events).passwords,
        ∃ seed : Bytes32, keys.address seed.val = wallet ∧
          Disk.runOn (NodeWalletKeystore.load keys codec paths.keystore password) (fun _ => none)
            (NodeWalletKeystore.Install.run keys codec ∅ events).files
              = (.ok seed, (NodeWalletKeystore.Install.run keys codec ∅ events).files)) :=
  NodeWalletKeystore.wallet_never_lost paths keys codec codec_lawful ∅ Finmap.notMem_empty events

lemma codec_writes (seed : Bytes32) (h : keys.address seed.val = keys.address drawn.seed.val) :
    ∃ bytes, codec.toVecPretty (NodeWalletKeystore.kind.sealed (keys.address drawn.seed.val)
      seed.val (trim newText) redrawn) = .ok bytes := by
  obtain rfl : seed = drawn.seed := Subtype.ext (hexEncode_inj h)
  exact ⟨_, codecOf_writes (List.mem_cons_of_mem _ List.mem_cons_self)⟩

lemma textLen_newText : 10 ≤ textLen (trim newText) := by decide +kernel

lemma change_returns :
    (Disk.runOn (NodeWalletKeystore.runChangePassword paths keys codec 5 redrawn redrawn)
      (fun _ => none) (NodeWalletKeystore.Install.run keys codec ∅ installed).files).1
        = .ok () := by
  rw [installed]
  exact NodeWalletKeystore.runChangePassword_after_start codec_lawful Finmap.notMem_empty
    Finmap.notMem_empty (codecOf_writes List.mem_cons_self) textLen_newText codec_writes

/-- The password is changed after the first start. -/
theorem password_changed_first :
    let s := NodeWalletKeystore.Install.run keys codec ∅ installed
    let changed := Disk.runOn (NodeWalletKeystore.runChangePassword paths keys codec 5 redrawn
      redrawn) (fun _ => none) s.files
    ∃ seed : Bytes32, (∀ shown ∈ s.shown, shown = keys.address seed.val) ∧
      Disk.runOn (NodeWalletKeystore.loadOrCreateDefault paths keys codec drawn) (fun _ => none)
        changed.2 = (.ok seed, changed.2) :=
  NodeWalletKeystore.password_changed paths keys codec codec_lawful ∅ Finmap.notMem_empty
    installed 5 redrawn redrawn (fun _ => none) drawn change_returns

/-- The document with its nonce in capitals and without its address. -/
def respelled : KeystoreDocument :=
  { document with
    address := ""
    nonce := String.ofList (List.replicate 32 ['A', 'B']).flatten }

lemma respelled_opens :
    NodeWalletKeystore.kind.unsealed respelled (hexEncode drawn.password.val) = .ok drawn.seed := by
  have hspelling : hexDecode (String.ofList (List.replicate 32 ['A', 'B']).flatten) =
      some (List.replicate 32 0xab) := by
    decide +kernel
  have hnonce : hexDecode respelled.nonce = hexDecode document.nonce :=
    hspelling.trans (hexDecode_hexEncode _).symm
  have hsame := @KeystoreKind.unsealed_respelled _ NodeWalletKeystore.kind document respelled rfl rfl
    rfl hnonce rfl rfl (hexEncode drawn.password.val)
  exact hsame.trans (NodeWalletKeystore.kind.unsealed_sealed _ _ _ _)

/-- The nonce may be written in capitals. -/
theorem opened_as_sealed_first :
    ∃ salt nonce ciphertext, hexDecode respelled.salt = some salt ∧
      hexDecode respelled.nonce = some nonce ∧ hexDecode respelled.ciphertext = some ciphertext ∧
      ((hexEncode drawn.password.val = hexEncode drawn.password.val ∧ drawn.seed = drawn.seed ∧
        salt = drawn.document.salt.val ∧ nonce = drawn.document.nonce.val ∧
        hexEncode ciphertext = document.ciphertext ∧ respelled.kdfRounds = kdfRounds) ∨
      Sealing.Collides sha256
        (NodeWalletKeystore.kind.hashed (hexEncode drawn.password.val) drawn.document.salt.val
          drawn.document.nonce.val
          (NodeWalletKeystore.kind.crypt drawn.seed.val
            (NodeWalletKeystore.kind.deriveKey (hexEncode drawn.password.val)
              drawn.document.salt.val kdfRounds.toNat) drawn.document.nonce.val) kdfRounds.toNat)
        (NodeWalletKeystore.kind.hashed (hexEncode drawn.password.val) salt nonce ciphertext
          respelled.kdfRounds.toNat)) :=
  NodeWalletKeystore.kind.opened_as_sealed (keys.address drawn.seed.val) drawn.seed
    (hexEncode drawn.password.val) drawn.document respelled (hexEncode drawn.password.val)
    drawn.seed rfl respelled_opens

end FirstWallet

end IeumChain
