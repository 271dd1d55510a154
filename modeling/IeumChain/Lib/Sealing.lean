import IeumChain.Lib.Bytes

/-!
# Secrets sealed with a password

A key is derived from a password and a salt by hashing in rounds, the secret is added to a stream of
hashes of the key and a nonce, and a hash of key, nonce and ciphertext tells whether they belong
together. Everything is over a hash function with 32 bytes.

* `crypt_crypt`: the same stream takes the secret out again;
* `deriveKey_inj` and `mac_inj`: two keys, or two tags, are the same only if what they were made of
  is the same, or if the hash function collides at two inputs that are named.
-/

namespace Lib

namespace Sealing
variable (H : Bytes → { bytes : Bytes // bytes.length = 32 })

/-- The labels that keep the three uses of the hash function apart. -/
structure Labels where
  kdf : Bytes
  stream : Bytes
  mac : Bytes

/-! ## The stream -/

/-- Add the blocks from the given one on to the input. -/
def cryptFrom (block : ℕ → Bytes) (i : ℕ) (input : Bytes) : Bytes :=
  if input = [] then []
  else List.zipWith (· ^^^ ·) (input.take 32) (block i) ++ cryptFrom block (i + 1) (input.drop 32)
termination_by input.length
decreasing_by
  rename_i h
  have hlength := List.length_pos_of_ne_nil h
  rw [List.length_drop]
  omega

/-- A block of the stream. -/
def streamBlock (label key nonce : Bytes) (counter : ℕ) : Bytes :=
  (H (label ++ (key ++ (nonce ++ beBytes 8 counter)))).val

lemma cryptFrom_nil (block : ℕ → Bytes) (i : ℕ) : cryptFrom block i [] = [] := by
  rw [cryptFrom, if_pos rfl]

def crypt (label key nonce input : Bytes) : Bytes := cryptFrom (streamBlock H label key nonce) 0 input

section Stream
variable {block : ℕ → Bytes} (hblock : ∀ i, (block i).length = 32)
include hblock

lemma length_zipWith_take (i : ℕ) (input : Bytes) :
    (List.zipWith (· ^^^ ·) (input.take 32) (block i)).length = min 32 input.length := by
  rw [List.length_zipWith, List.length_take, hblock]
  omega

omit hblock in
/-- Adding a block twice does nothing. -/
lemma zipWith_xor_twice : ∀ (as bs : Bytes), as.length ≤ bs.length →
    List.zipWith (· ^^^ ·) (List.zipWith (· ^^^ ·) as bs) bs = as := by
  intro as
  induction as with
  | nil => exact fun _ _ => rfl
  | cons a as ih =>
    intro bs hle
    cases bs with
    | nil => cases hle
    | cons b bs =>
      rw [List.zipWith_cons_cons, List.zipWith_cons_cons, ih bs (Nat.le_of_succ_le_succ hle),
        UInt8.xor_assoc, UInt8.xor_self, UInt8.xor_zero]

lemma cryptFrom_cryptFrom (input : Bytes) :
    ∀ i, cryptFrom block i (cryptFrom block i input) = input := by
  induction h : input.length using Nat.strong_induction_on generalizing input with
  | _ n ih =>
    intro i
    by_cases hempty : input = []
    · rw [hempty, cryptFrom_nil, cryptFrom_nil]
    · have hpos := List.length_pos_of_ne_nil hempty
      have hdrop : (input.drop 32).length = input.length - 32 := List.length_drop
      have hrest := ih (input.drop 32).length (by omega) _ rfl (i + 1)
      have hhead := length_zipWith_take hblock i input
      have htake : (input.take 32).length ≤ (block i).length := by
        rw [List.length_take, hblock]
        omega
      conv_lhs => rw [cryptFrom.eq_def block i input, if_neg hempty]
      rw [cryptFrom, if_neg (List.append_ne_nil_of_left_ne_nil
        (List.ne_nil_of_length_pos (by omega)) _)]
      -- the first block of the output comes from that of the input
      by_cases hlong : 32 ≤ input.length
      · have hfull : (List.zipWith (· ^^^ ·) (input.take 32) (block i)).length = 32 := by omega
        rw [List.take_left' hfull, List.drop_left' hfull, hrest,
          zipWith_xor_twice _ _ htake, List.take_append_drop]
      · have hnone : input.drop 32 = [] := List.drop_eq_nil_of_le (by omega)
        rw [hnone, cryptFrom_nil, List.append_nil, List.take_of_length_le (by omega),
          List.drop_eq_nil_of_le (by omega), cryptFrom_nil, List.append_nil,
          zipWith_xor_twice _ _ htake, List.take_of_length_le (by omega)]

end Stream

/-- The same stream takes the secret out again. -/
theorem crypt_crypt (label key nonce input : Bytes) :
    crypt H label key nonce (crypt H label key nonce input) = input :=
  cryptFrom_cryptFrom (fun _ => (H _).property) input 0

/-! ## Collisions -/

/-- Two different inputs of the lists have the same hash. -/
def Collides (xs ys : List Bytes) : Prop := ∃ x ∈ xs, ∃ y ∈ ys, x ≠ y ∧ H x = H y

variable {H}

lemma eq_or_collides {xs ys : List Bytes} {x y : Bytes} (hx : x ∈ xs) (hy : y ∈ ys)
    (h : H x = H y) : x = y ∨ Collides H xs ys := by
  by_cases heq : x = y
  · exact .inl heq
  · exact .inr ⟨x, hx, y, hy, heq, h⟩

lemma Collides.mono {xs ys xs' ys' : List Bytes} (h : Collides H xs ys)
    (hxs : ∀ x ∈ xs, x ∈ xs') (hys : ∀ y ∈ ys, y ∈ ys') : Collides H xs' ys' := by
  obtain ⟨x, hx, y, hy, hne, heq⟩ := h
  exact ⟨x, hxs x hx, y, hys y hy, hne, heq⟩

variable (H)

/-! ## The key -/

/-- What a round hashes. -/
def roundInput (salt key : Bytes) (round : ℕ) : Bytes := key ++ (salt ++ beBytes 4 round)

/-- The key after a number of rounds, the first of which hashes the password. -/
def deriveKey (label password salt : Bytes) (rounds : ℕ) : Bytes :=
  ((List.range' 1 (rounds - 1)).foldl (fun key round => H (roundInput salt key.val round))
    (H (label ++ (salt ++ password)))).val

/-- All that is hashed for a key. -/
def kdfInputs (label password salt : Bytes) (rounds : ℕ) : List Bytes :=
  (label ++ (salt ++ password)) :: (List.range' 1 (rounds - 1)).map fun round =>
    roundInput salt (deriveKey H label password salt round) round

variable {H} {label password password' salt salt' : Bytes} {rounds rounds' : ℕ}

lemma length_deriveKey : (deriveKey H label password salt rounds).length = 32 := by
  unfold deriveKey
  generalize List.foldl _ _ _ = key
  exact key.property

lemma deriveKey_succ (n : ℕ) : deriveKey H label password salt (n + 2)
    = (H (roundInput salt (deriveKey H label password salt (n + 1)) (n + 1))).val := by
  have hrange : List.range' 1 (n + 1) = List.range' 1 n ++ [n + 1] := by
    rw [List.range'_concat, one_mul, Nat.add_comm]
  have hrounds : n + 2 - 1 = n + 1 := rfl
  rw [deriveKey, hrounds, hrange, List.foldl_append]
  rfl

lemma mem_kdfInputs (password salt : Bytes) {rounds n : ℕ} (h : n + 1 < rounds) :
    roundInput salt (deriveKey H label password salt (n + 1)) (n + 1)
      ∈ kdfInputs H label password salt rounds := by
  refine List.mem_cons_of_mem _ (List.mem_map_of_mem ?_)
  rw [List.mem_range'_1]
  omega

/-- With the same salt, a key tells the password. -/
lemma password_inj (n : ℕ) (hrounds : n + 1 ≤ rounds) (hrounds' : n + 1 ≤ rounds')
    (h : deriveKey H label password salt (n + 1) = deriveKey H label password' salt (n + 1)) :
    password = password' ∨
      Collides H (kdfInputs H label password salt rounds)
        (kdfInputs H label password' salt rounds') := by
  induction n with
  | zero =>
    refine (eq_or_collides List.mem_cons_self List.mem_cons_self (Subtype.ext h)).imp_left ?_
    intro heq
    exact List.append_cancel_left (List.append_cancel_left heq)
  | succ n ih =>
    rw [deriveKey_succ, deriveKey_succ] at h
    have hmem : n + 1 < rounds := by omega
    have hmem' : n + 1 < rounds' := by omega
    rcases eq_or_collides (mem_kdfInputs password salt hmem) (mem_kdfInputs password' salt hmem')
      (Subtype.ext h) with heq | hcollides
    · exact ih (by omega) (by omega) (List.append_cancel_right heq)
    · exact .inr hcollides

/-- A key tells the password, the salt and the number of rounds. -/
theorem deriveKey_inj (hsalt : salt.length = salt'.length) (hrounds : 2 ≤ rounds)
    (hrounds' : 2 ≤ rounds') (hlt : rounds < 2 ^ 32) (hlt' : rounds' < 2 ^ 32)
    (h : deriveKey H label password salt rounds = deriveKey H label password' salt' rounds') :
    (password = password' ∧ salt = salt' ∧ rounds = rounds') ∨
      Collides H (kdfInputs H label password salt rounds)
        (kdfInputs H label password' salt' rounds') := by
  obtain ⟨n, rfl⟩ := Nat.exists_eq_add_of_le' hrounds
  obtain ⟨m, rfl⟩ := Nat.exists_eq_add_of_le' hrounds'
  have hlast := h
  rw [deriveKey_succ, deriveKey_succ] at hlast
  have hmem : n + 1 < n + 2 := by omega
  have hmem' : m + 1 < m + 2 := by omega
  rcases eq_or_collides (mem_kdfInputs password salt hmem) (mem_kdfInputs password' salt' hmem')
    (Subtype.ext hlast) with heq | hcollides
  · obtain ⟨_, heq⟩ := append_inj_of_length (by rw [length_deriveKey, length_deriveKey]) heq
    obtain ⟨rfl, hround⟩ := append_inj_of_length hsalt heq
    obtain rfl : n = m := Nat.succ.inj (beBytes_inj (by omega) (by omega) hround)
    exact (password_inj (n + 1) le_rfl le_rfl h).imp_left fun hpassword => ⟨hpassword, rfl, rfl⟩
  · exact .inr hcollides

/-! ## The tag -/

/-- What the tag hashes. -/
def macInput (label key nonce ciphertext : Bytes) : Bytes := label ++ (key ++ (nonce ++ ciphertext))

variable (H)

def mac (label key nonce ciphertext : Bytes) : Bytes := (H (macInput label key nonce ciphertext)).val

variable {H} {key key' nonce nonce' ciphertext ciphertext' : Bytes}

/-- A tag tells the key, the nonce and the ciphertext. -/
theorem mac_inj (hkey : key.length = key'.length) (hnonce : nonce.length = nonce'.length)
    (h : mac H label key nonce ciphertext = mac H label key' nonce' ciphertext') :
    (key = key' ∧ nonce = nonce' ∧ ciphertext = ciphertext') ∨
      Collides H [macInput label key nonce ciphertext]
        [macInput label key' nonce' ciphertext'] := by
  refine (eq_or_collides (List.mem_singleton_self _) (List.mem_singleton_self _)
    (Subtype.ext h)).imp_left fun heq => ?_
  obtain ⟨hkeys, hrest⟩ := append_inj_of_length hkey (List.append_cancel_left heq)
  exact ⟨hkeys, append_inj_of_length hnonce hrest⟩

end Sealing

end Lib
