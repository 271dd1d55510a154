import IeumChain.ScheduledEvent

/-!
# The JSON text of an event

An event enters a block's hash as JSON text. The text determines the event
(`consensusBytes_inj`), and it is found again from the end of a longer text
(`isRecord_consensusBytes`): it starts with an opening brace, a quote and the letter `i`, which
stands nowhere else in it, since no other record in it has a first key with that letter.
-/

namespace IeumChain

open Lib Lib.Json

/-! ## The text determines the event -/

lemma amount_inj {a b : U128} (h : toString a.toNat = toString b.toNat) : a = b := by
  have hnat : a.toNat = b.toNat := decimal_inj (congrArg textBytes h)
  exact BitVec.toNat_inj.mp hnat

lemma prefixFree_payment : PrefixFree EventPayment.json := by
  rintro ⟨address, amount⟩ ⟨address', amount'⟩ r s h
  simp only [EventPayment.json, amountJson, List.append_assoc, List.append_cancel_left_eq] at h
  obtain ⟨haddress, h⟩ := prefixFree_quoted h
  rw [List.append_cancel_left_eq] at h
  obtain ⟨hamount, h⟩ := prefixFree_quoted h
  rw [List.append_cancel_left_eq] at h
  exact ⟨by rw [haddress, amount_inj hamount], h⟩

lemma prefixFree_validatorRegistration : PrefixFree ValidatorRegistration.json := by
  rintro ⟨_, _, _⟩ ⟨_, _, _⟩ r s h
  simp only [ValidatorRegistration.json, List.append_assoc, List.append_cancel_left_eq] at h
  obtain ⟨h₁, h⟩ := prefixFree_quoted h
  rw [List.append_cancel_left_eq] at h
  obtain ⟨h₂, h⟩ := prefixFree_quoted h
  rw [List.append_cancel_left_eq] at h
  obtain ⟨h₃, h⟩ := prefixFree_quoted h
  rw [List.append_cancel_left_eq] at h
  exact ⟨by rw [h₁, h₂, h₃], h⟩

lemma prefixFree_nodeRegistration : PrefixFree NodeRewardRegistration.json := by
  rintro ⟨_, _, _, _, _, _⟩ ⟨_, _, _, _, _, _⟩ r s h
  simp only [NodeRewardRegistration.json, List.append_assoc, List.append_cancel_left_eq] at h
  obtain ⟨h₁, h⟩ := prefixFree_quoted h
  rw [List.append_cancel_left_eq] at h
  obtain ⟨h₂, h⟩ := prefixFree_quoted h
  rw [List.append_cancel_left_eq] at h
  obtain ⟨h₃, h⟩ := prefixFree_quoted h
  rw [List.append_cancel_left_eq] at h
  obtain ⟨h₄, h⟩ := prefixFree_quoted h
  rw [List.append_cancel_left_eq] at h
  obtain ⟨h₅, h⟩ := prefixFree_quoted h
  rw [List.append_cancel_left_eq] at h
  obtain ⟨h₆, h⟩ := prefixFree_quoted h
  rw [List.append_cancel_left_eq] at h
  exact ⟨by rw [h₁, h₂, h₃, h₄, h₅, h₆], h⟩

lemma isObject_payment : IsObject EventPayment.json := fun p =>
  ⟨_, by rw [EventPayment.json, List.append_assoc, List.append_assoc, List.append_assoc]; rfl⟩

lemma isObject_validatorRegistration : IsObject ValidatorRegistration.json := fun r =>
  ⟨_, by simp only [ValidatorRegistration.json, List.append_assoc]; rfl⟩

lemma isObject_nodeRegistration : IsObject NodeRewardRegistration.json := fun r =>
  ⟨_, by simp only [NodeRewardRegistration.json, List.append_assoc]; rfl⟩

namespace ScheduledEventAction

/-- The text of an action determines it: the tag tells which action it is, and each field can be
read from the front of what follows. -/
lemma json_inj {a b : ScheduledEventAction} {r s : Bytes} (h : a.json ++ r = b.json ++ s) :
    a = b := by
  simp only [json, List.append_assoc, List.append_cancel_left_eq] at h
  obtain ⟨htype, h⟩ := prefixFree_quoted h
  cases a <;> cases b <;> simp only [typeName, String.reduceEq] at htype <;>
    simp only [fieldsJson, amountJson, List.append_assoc, List.append_cancel_left_eq] at h
  · obtain ⟨hrecipients, _⟩ := prefixFree_array prefixFree_payment isObject_payment h
    rw [hrecipients]
  · obtain ⟨hproducer, h⟩ := prefixFree_quoted h
    rw [List.append_cancel_left_eq] at h
    obtain ⟨hamount, _⟩ := prefixFree_quoted h
    rw [hproducer, amount_inj hamount]
  · obtain ⟨hincident, h⟩ := prefixFree_quoted h
    rw [List.append_cancel_left_eq] at h
    obtain ⟨hvictim, h⟩ := prefixFree_quoted h
    rw [List.append_cancel_left_eq] at h
    obtain ⟨hamount, _⟩ := prefixFree_quoted h
    rw [hincident, hvictim, amount_inj hamount]
  · obtain ⟨hversion, _⟩ := decimal_append_inj (c := 0x7d) rfl h
    rw [UInt32.toNat_inj.mp hversion]
  · obtain ⟨hregistrations, h⟩ :=
      prefixFree_array prefixFree_validatorRegistration isObject_validatorRegistration h
    rw [List.append_cancel_left_eq] at h
    obtain ⟨hamount, _⟩ := prefixFree_quoted h
    rw [hregistrations, amount_inj hamount]
  · obtain ⟨hregistrations, h⟩ :=
      prefixFree_array prefixFree_nodeRegistration isObject_nodeRegistration h
    rw [List.append_cancel_left_eq] at h
    obtain ⟨hamount, _⟩ := prefixFree_quoted h
    rw [hregistrations, amount_inj hamount]

end ScheduledEventAction

/-- The text of an event determines the event. -/
lemma consensusBytes_inj {e e' : ScheduledEvent} (h : e.consensusBytes = e'.consensusBytes) :
    e = e' := by
  simp only [ScheduledEvent.consensusBytes, List.append_assoc, List.append_cancel_left_eq] at h
  obtain ⟨hid, h⟩ := prefixFree_quoted h
  rw [List.append_cancel_left_eq] at h
  obtain ⟨htime, h⟩ := decimal_append_inj (c := 0x2c) rfl h
  have haction : e.action.json ++ _ = e'.action.json ++ _ := List.append_cancel_left h
  cases e
  cases e'
  rw [ScheduledEvent.mk.injEq]
  exact ⟨hid, UInt64.toNat_inj.mp htime, ScheduledEventAction.json_inj haction⟩

/-! ## The text is found from its end -/

namespace EventText

/-- The letter after the first quote of an event's text. -/
def key : UInt8 := 0x69

/-- A fixed part of the text that leaves no sequence begun. -/
lemma run_literal {text : String} (h : Marker.run key .clear (textBytes text) = .clear) (r : Bytes) :
    Marker.run key .clear (textBytes text ++ r) = Marker.run key .clear r := by
  rw [Marker.run_append, h]

/-- A string and the fixed part after it, which starts with a comma or a closing brace. -/
lemma run_quoted_literal (s : String) {text : String} {c : UInt8} {t : Bytes}
    (htext : textBytes text = c :: t) (hc : c = 0x2c ∨ c = 0x7d)
    (ht : Marker.run key .clear t = .clear) (r : Bytes) :
    Marker.run key .clear (quoted s ++ (textBytes text ++ r)) = Marker.run key .clear r := by
  have hkey : c ≠ key := by
    rcases hc with rfl | rfl <;> decide
  rw [htext, List.cons_append, Marker.run_quoted s hc hkey, Marker.run_append, ht]

lemma run_payment (p : EventPayment) (r : Bytes) :
    Marker.run key .clear (p.json ++ r) = Marker.run key .clear r := by
  simp only [EventPayment.json, amountJson, List.append_assoc]
  rw [run_literal (by decide), run_quoted_literal _ rfl (by decide) (by decide),
    run_quoted_literal _ rfl (by decide) (by decide)]

lemma run_validatorRegistration (v : ValidatorRegistration) (r : Bytes) :
    Marker.run key .clear (v.json ++ r) = Marker.run key .clear r := by
  simp only [ValidatorRegistration.json, List.append_assoc]
  rw [run_literal (by decide), run_quoted_literal _ rfl (by decide) (by decide),
    run_quoted_literal _ rfl (by decide) (by decide),
    run_quoted_literal _ rfl (by decide) (by decide)]

lemma run_nodeRegistration (v : NodeRewardRegistration) (r : Bytes) :
    Marker.run key .clear (v.json ++ r) = Marker.run key .clear r := by
  simp only [NodeRewardRegistration.json, List.append_assoc]
  rw [run_literal (by decide), run_quoted_literal _ rfl (by decide) (by decide),
    run_quoted_literal _ rfl (by decide) (by decide),
    run_quoted_literal _ rfl (by decide) (by decide),
    run_quoted_literal _ rfl (by decide) (by decide),
    run_quoted_literal _ rfl (by decide) (by decide),
    run_quoted_literal _ rfl (by decide) (by decide)]

lemma run_action (a : ScheduledEventAction) (r : Bytes) :
    Marker.run key .clear (a.json ++ r) = Marker.run key .clear r := by
  have htag : ∀ t : String, t = a.typeName → ∀ x : Bytes,
      Marker.run key .clear (quoted t ++ x) = Marker.run key .clear x := by
    rintro _ rfl x
    have hclear : Marker.run key .clear (quoted a.typeName) = .clear := by
      cases a <;> rfl
    rw [Marker.run_append, hclear]
  simp only [ScheduledEventAction.json, List.append_assoc]
  rw [run_literal (by decide), htag _ rfl]
  cases a <;> simp only [ScheduledEventAction.fieldsJson, amountJson, List.append_assoc]
  · rw [run_literal (by decide), Marker.run_array run_payment, run_literal (by decide)]
  · rw [run_literal (by decide), run_quoted_literal _ rfl (by decide) (by decide),
      run_quoted_literal _ rfl (by decide) (by decide)]
  · rw [run_literal (by decide), run_quoted_literal _ rfl (by decide) (by decide),
      run_quoted_literal _ rfl (by decide) (by decide),
      run_quoted_literal _ rfl (by decide) (by decide)]
  · rw [run_literal (by decide), Marker.run_decimal, run_literal (by decide)]
  · rw [run_literal (by decide), Marker.run_array run_validatorRegistration,
      run_literal (by decide), run_quoted_literal _ rfl (by decide) (by decide)]
  · rw [run_literal (by decide), Marker.run_array run_nodeRegistration,
      run_literal (by decide), run_quoted_literal _ rfl (by decide) (by decide)]

/-- The text of an event is a record. -/
lemma isRecord_consensusBytes (e : ScheduledEvent) : IsRecord key e.consensusBytes := by
  have htext : e.consensusBytes = 0x7b :: (textBytes "\"id\":" ++ (quoted e.id ++
      (textBytes ",\"execute_at\":" ++ (decimal e.executeAt.toNat ++
        (textBytes ",\"action\":" ++ (e.action.json ++ textBytes "\x7d")))))) := by
    simp only [ScheduledEvent.consensusBytes, List.append_assoc]
    rfl
  refine ⟨⟨_, htext.trans rfl⟩, ?_⟩
  rw [htext, List.tail_cons, run_literal (by decide),
    run_quoted_literal _ rfl (by decide) (by decide), Marker.run_decimal, run_literal (by decide),
    run_action]
  decide

/-- An event's text contains a brace. -/
lemma brace_mem_consensusBytes (e : ScheduledEvent) : (0x7b : UInt8) ∈ e.consensusBytes := by
  obtain ⟨t, ht⟩ := (isRecord_consensusBytes e).starts
  rw [ht]
  exact List.mem_cons_self

end EventText

end IeumChain
