import IeumChain.CanonicalTheorems

/-!
# The list decoder cuts no slice out of range

`drop` and `take` end where the bytes end, and a slice of the source ends the process there. Here the
list decoder is written with slices that are checked (`decodeListSliced`). Every item takes at least
one byte of the content, which is why its loop ends, and none of its slices is out of range
(`decodeListSliced_eq`).
-/

namespace IeumChain

open Lib

namespace Rlp

/-- What a computation comes to: nothing where a slice is out of range. -/
abbrev Sliced (α : Type) := ExceptT String Option α

namespace Sliced

/-- A step without a slice. -/
def lift {α : Type} (x : Result α) : Sliced α := some x

/-- `&bytes[start..stop]`. -/
def slice (bytes : Bytes) (start stop : ℕ) : Sliced Bytes :=
  if start ≤ stop ∧ stop ≤ bytes.length then
    lift (.ok ((bytes.drop start).take (stop - start)))
  else none

lemma slice_eq {bytes : Bytes} {start stop : ℕ} (hle : start ≤ stop) (hlen : stop ≤ bytes.length) :
    slice bytes start stop = lift (.ok ((bytes.drop start).take (stop - start))) :=
  if_pos ⟨hle, hlen⟩

lemma lift_bind {α β : Type} (x : Result α) (f : α → Sliced β) :
    (lift x >>= f) = match x with
      | .ok a => f a
      | .error e => lift (.error e) := by
  cases x <;> rfl

/-- A check in front of two computations that agree where it holds. -/
lemma ensure_bind {α : Type} {c : Prop} [Decidable c] {e : String} {f : Unit → Sliced α}
    {g : Unit → Result α} (h : c → f () = lift (g ())) :
    (lift (ensure c e) >>= f) = lift (ensure c e >>= g) := by
  by_cases hc : c
  · rw [ensure, if_pos hc]
    exact h hc
  · rw [ensure, if_neg hc]
    rfl

end Sliced

open Sliced

/-! ## One item -/

/-- `read_length`, with its slice. -/
def readLengthSliced (input : Bytes) (start width : ℕ) : Sliced ℕ := do
  lift (ensure (width ≠ 0 ∧ width ≤ 8 ∧ start + width ≤ input.length)
    "RLP 길이 필드가 잘못되었습니다.")
  let field ← slice input start (start + width)
  return beNat field

/-- The kind, start and length of `decode_item`, with the slices. -/
def itemHeaderSliced (input : Bytes) : Sliced (Bool × ℕ × ℕ) := do
  let first ← lift (okOr input.head? "빈 RLP입니다.")
  let p := first.toNat
  if p ≤ 0x7f then return (false, 0, 1)
  else if p ≤ 0xb7 then return (false, 1, p - 0x80)
  else if p ≤ 0xbf then
    let length ← readLengthSliced input 1 (p - 0xb7)
    return (false, 1 + (p - 0xb7), length)
  else if p ≤ 0xf7 then return (true, 1, p - 0xc0)
  else
    let length ← readLengthSliced input 1 (p - 0xf7)
    return (true, 1 + (p - 0xf7), length)

/-- `decode_item`, with its slices. -/
def decodeItemSliced (input : Bytes) (requireList : Bool) : Sliced (Bytes × ℕ) := do
  let (isList, start, length) ← itemHeaderSliced input
  lift (ensure (requireList = isList) "예상한 RLP 항목 종류와 다릅니다.")
  lift (ensure (start + length < 2 ^ 64) "RLP 길이가 넘쳤습니다.")
  lift (ensure (start + length ≤ input.length) "RLP 길이가 실제 데이터보다 큽니다.")
  let value ← slice input start (start + length)
  return (value, start + length)

lemma readLengthSliced_eq (input : Bytes) (width : ℕ) :
    readLengthSliced input 1 width = lift (readLength input width) := by
  refine ensure_bind fun h => ?_
  rw [slice_eq (Nat.le_add_right 1 width) h.2.2, Nat.add_sub_cancel_left]
  rfl

lemma itemHeaderSliced_eq (input : Bytes) : itemHeaderSliced input = lift (itemHeader input) := by
  cases input with
  | nil => rfl
  | cons first rest =>
    have hlength : ∀ (width : ℕ) (isList : Bool),
        (readLengthSliced (first :: rest) 1 width >>= fun length =>
          (pure (isList, 1 + width, length) : Sliced (Bool × ℕ × ℕ))) =
        lift (readLength (first :: rest) width >>= fun length =>
          pure (isList, 1 + width, length)) := by
      intro width isList
      rw [readLengthSliced_eq, lift_bind]
      cases readLength (first :: rest) width <;> rfl
    have hfirst : ∀ f : UInt8 → Result (Bool × ℕ × ℕ), (Except.ok first >>= f) = f first :=
      fun _ => rfl
    simp only [itemHeaderSliced, itemHeader, List.head?_cons, okOr, lift_bind, hlength, hfirst]
    split_ifs <;> rfl

lemma decodeItemSliced_eq (input : Bytes) (requireList : Bool) :
    decodeItemSliced input requireList = lift (decodeItem input requireList) := by
  rw [decodeItemSliced, decodeItem, itemHeaderSliced_eq, lift_bind]
  cases itemHeader input with
  | error e => rfl
  | ok header =>
    obtain ⟨isList, start, length⟩ := header
    refine ensure_bind fun _ => ensure_bind fun _ => ensure_bind fun hfits => ?_
    rw [slice_eq (Nat.le_add_right start length) hfits, Nat.add_sub_cancel_left]
    rfl

/-- A decoded item takes at least one byte, and no more than there are. -/
lemma size_of_decodeItem {input value : Bytes} {isList : Bool} {size : ℕ}
    (h : decodeItem input isList = .ok (value, size)) : 1 ≤ size ∧ size ≤ input.length := by
  obtain ⟨first, rest, start, length, _, _, hform, _, _, rfl, hfits, _⟩ := decodeItem_eq_ok h
  refine ⟨?_, hfits⟩
  cases hform <;> omega

/-! ## The loop over the items -/

/-- The item at an offset. -/
def fieldAt (payload : Bytes) (offset : ℕ) : Sliced (Bytes × ℕ) := do
  let rest ← slice payload offset payload.length
  decodeItemSliced rest false

lemma fieldAt_eq {payload : Bytes} {offset : ℕ} (h : offset ≤ payload.length) :
    fieldAt payload offset = lift (decodeItem (payload.drop offset) false) := by
  have hrest : (payload.drop offset).take (payload.length - offset) = payload.drop offset := by
    rw [← List.length_drop]
    exact List.take_length
  rw [fieldAt, slice_eq h le_rfl, hrest, lift_bind]
  exact decodeItemSliced_eq _ _

/-- The loop of `decode_list`, from an offset on. It goes on behind the item, which is what makes it
end. -/
def decodeFields (payload : Bytes) (offset : ℕ) (fields : List Bytes) : Sliced (List Bytes) :=
  if offset < payload.length then
    match _hitem : fieldAt payload offset with
    | none => none
    | some (.error e) => lift (.error e)
    | some (.ok (value, size)) => decodeFields payload (offset + size) (fields ++ [value])
  else lift (.ok fields)
termination_by payload.length - offset
decreasing_by
  rw [fieldAt_eq (by omega)] at _hitem
  have hsize := (size_of_decodeItem (Option.some.inj _hitem)).1
  omega

/-- From every offset within the content the loop reads the items that are left. -/
lemma decodeFields_eq {payload : Bytes} : ∀ {fuel offset : ℕ} {fields : List Bytes},
    payload.length - offset ≤ fuel → decodeFields payload offset fields =
      lift (decodeItems fuel (payload.drop offset) >>= fun values => .ok (fields ++ values)) := by
  intro fuel
  -- each field has at least one byte, so the rest of the payload bounds the loop
  induction fuel with
  | zero =>
    intro offset fields hfuel
    have hend : ¬ offset < payload.length := by omega
    rw [decodeFields, if_neg hend, List.drop_eq_nil_of_le (by omega), decodeItems]
    show lift (.ok fields) = lift (.ok (fields ++ []))
    rw [List.append_nil]
  | succ fuel ih =>
    intro offset fields hfuel
    by_cases hmore : offset < payload.length
    · obtain ⟨b, bs, hcons⟩ : ∃ b bs, payload.drop offset = b :: bs :=
        ⟨_, _, List.drop_eq_getElem_cons hmore⟩
      have hfield := fieldAt_eq hmore.le
      rw [hcons] at hfield
      rw [decodeFields, if_pos hmore, hcons, decodeItems]
      split
      case h_1 hnone =>
        rw [hfield] at hnone
        cases hnone
      case h_2 e herror =>
        rw [hfield] at herror
        rw [Option.some.inj herror]
        rfl
      case h_3 value size hok =>
        rw [hfield] at hok
        have hitem := Option.some.inj hok
        have hsize := (size_of_decodeItem hitem).1
        rw [hitem, ih (by omega), ← List.drop_drop, hcons]
        show _ = lift ((decodeItems fuel ((b :: bs).drop size) >>= fun values =>
          .ok (value :: values)) >>= fun values => .ok (fields ++ values))
        cases decodeItems fuel ((b :: bs).drop size) with
        | error e => rfl
        | ok values =>
          show lift (.ok (fields ++ [value] ++ values)) = lift (.ok (fields ++ value :: values))
          rw [List.append_assoc, List.singleton_append]
    · rw [decodeFields, if_neg hmore, List.drop_eq_nil_of_le (by omega), decodeItems]
      show lift (.ok fields) = lift (.ok (fields ++ []))
      rw [List.append_nil]

/-- `decode_list`, with its slices. -/
def decodeListSliced (input : Bytes) : Sliced (List Bytes) := do
  let (payload, consumed) ← decodeItemSliced input true
  lift (ensure (consumed = input.length) "RLP 목록 뒤에 불필요한 바이트가 있습니다.")
  decodeFields payload 0 []

/-- No slice is out of range, whatever the input. -/
theorem decodeListSliced_eq (input : Bytes) :
    decodeListSliced input = lift (decodeList input) := by
  rw [decodeListSliced, decodeList, decodeItemSliced_eq, lift_bind]
  cases decodeItem input true with
  | error e => rfl
  | ok item =>
    obtain ⟨payload, consumed⟩ := item
    refine ensure_bind fun _ => ?_
    rw [@decodeFields_eq payload payload.length 0 [] (Nat.sub_le _ _), List.drop_zero]
    cases decodeItems payload.length payload <;> rfl

/-- **The list codec.** What was encoded as a list is decoded to its strings. Whatever the input, the
decoder ends without a slice out of range, and every item that it reads takes at least one byte. -/
theorem rlp_list_round_trip (values : List Bytes)
    (hsize : (encodeList (values.map encodeBytes)).length < 2 ^ 64) (input : Bytes) :
    decodeListSliced (encodeList (values.map encodeBytes)) = lift (.ok values) ∧
      decodeListSliced input = lift (decodeList input) ∧
      ∀ bytes isList value size, decodeItemSliced bytes isList = lift (.ok (value, size)) →
        1 ≤ size ∧ size ≤ bytes.length := by
  refine ⟨?_, decodeListSliced_eq input, fun bytes isList value size hitem => ?_⟩
  · rw [decodeListSliced_eq, decodeList_encodeList hsize]
  · rw [decodeItemSliced_eq] at hitem
    exact size_of_decodeItem (Option.some.inj hitem)

/-- Two strings, one of them a byte of its own, and an input that ends too early. -/
theorem rlp_list_round_trip_pair :
    decodeListSliced (encodeList ([[1], [200, 7]].map encodeBytes)) = lift (.ok [[1], [200, 7]]) ∧
      decodeListSliced [0xc2, 0x81] = lift (decodeList [0xc2, 0x81]) := by
  obtain ⟨hpair, hshort, _⟩ := rlp_list_round_trip [[1], [200, 7]] (by decide) [0xc2, 0x81]
  exact ⟨hpair, hshort⟩

end Rlp

end IeumChain
