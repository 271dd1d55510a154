import IeumChain.Communication
import IeumChain.Lib.Window
import Mathlib.Tactic

/-!
# Replay protection of the inbox

Two windows keep a message from being taken twice: it is valid until a time that its sender writes
into it, and its id is remembered while fewer than 1024 others come in. Neither window knows of the
other, nor the first of the node's clock. The inbox protects against replay exactly while they stay
in step (`replay_protected_iff`): what is accepted ends within the maximal life time from now, and
the id that has to go is that of a message whose time is over.
-/

namespace IeumChain

open Lib

namespace CommunicationEnvelope
variable {e : CommunicationEnvelope} {now later : UInt64}

/-- A message that is valid now is valid until its end. -/
lemma validate_iff (h : e.validate now = .ok ()) :
    e.validate later = .ok () ↔ later.toNat ≤ e.expiresAt.toNat := by
  simp only [validate, bind_eq_ok, ensure_eq_ok, not_or] at h ⊢
  obtain ⟨_, hid, _, htarget, _, ⟨hbefore, hlong, _⟩, hpayload⟩ := h
  constructor
  · rintro ⟨_, _, _, _, _, ⟨_, _, hpast⟩, _⟩
    exact UInt64.le_iff_toNat_le.mp (UInt64.not_lt.mp hpast)
  · intro hle
    have hpast := UInt64.not_lt.mpr (UInt64.le_iff_toNat_le.mpr hle)
    exact ⟨(), hid, (), htarget, (), ⟨hbefore, hlong, hpast⟩, hpayload⟩

end CommunicationEnvelope

namespace CommunicationInbox

/-! ## The window of ids -/

/-- The loop keeps the newest ids, and the set with them. -/
lemma forgetOldest_toFinset (order : List String) (hnodup : order.Nodup) :
    forgetOldest order order.toFinset
      = (order.drop (order.length - maxSeenSignalIds),
         (order.drop (order.length - maxSeenSignalIds)).toFinset) := by
  induction order with
  | nil => rfl
  | cons oldId rest ih =>
    obtain ⟨hfresh, hrest⟩ := List.nodup_cons.mp hnodup
    rw [forgetOldest]
    split
    next hlong =>
      have herase : (oldId :: rest).toFinset.erase oldId = rest.toFinset := by
        rw [List.toFinset_cons, Finset.erase_insert]
        rwa [List.mem_toFinset]
      have hcut : (oldId :: rest).length - maxSeenSignalIds
          = rest.length - maxSeenSignalIds + 1 := by
        rw [List.length_cons] at hlong ⊢
        omega
      rw [herase, ih hrest, hcut, List.drop_succ_cons]
    next hshort =>
      have hcut : (oldId :: rest).length - maxSeenSignalIds = 0 := by omega
      rw [hcut, List.drop_zero]

/-- The set and the order of the ids agree, and there are not too many. -/
structure Ordered (inbox : CommunicationInbox) : Prop where
  seen : inbox.seen = inbox.seenOrder.toFinset
  nodup : inbox.seenOrder.Nodup
  length_le : inbox.seenOrder.length ≤ maxSeenSignalIds

variable {inbox : CommunicationInbox} {e : CommunicationEnvelope} {now : UInt64}

/-- A valid message with a new id is accepted, and its id comes into the window. -/
lemma Ordered.push_new (h : Ordered inbox) (hvalid : e.validate now = .ok ())
    (hnew : e.id ∉ inbox.seenOrder) :
    inbox.push e now = (.ok (), {
      items := dropOldest inbox.items ++ [e]
      seen := (pushWithin maxSeenSignalIds inbox.seenOrder e.id).toFinset
      seenOrder := pushWithin maxSeenSignalIds inbox.seenOrder e.id }) := by
  have hunseen : e.id ∉ inbox.seen := by
    rw [h.seen, List.mem_toFinset]
    exact hnew
  have hnodup : (inbox.seenOrder ++ [e.id]).Nodup := by
    rw [← List.concat_eq_append]
    exact h.nodup.concat hnew
  have hinsert : insert e.id inbox.seen = (inbox.seenOrder ++ [e.id]).toFinset := by
    rw [h.seen, List.toFinset_append, List.toFinset_cons, List.toFinset_nil, Finset.union_comm]
    rfl
  have hcut := pushWithin_eq_drop (by decide) h.length_le e.id
  have hlength : (inbox.seenOrder ++ [e.id]).length = inbox.seenOrder.length + 1 :=
    List.length_append
  rw [push, hvalid]
  simp only
  rw [if_neg hunseen, hinsert, forgetOldest_toFinset _ hnodup, hlength, ← hcut]

/-- Everything else is refused. -/
lemma Ordered.push_eq_ok (h : Ordered inbox) :
    (inbox.push e now).1 = .ok () ↔ e.validate now = .ok () ∧ e.id ∉ inbox.seenOrder := by
  constructor
  · intro hpush
    unfold push at hpush
    cases hvalid : e.validate now with
    | error error =>
      rw [hvalid] at hpush
      cases hpush
    | ok u =>
      rw [hvalid] at hpush
      simp only at hpush
      split at hpush
      · cases hpush
      next hunseen =>
        refine ⟨rfl, fun hmem => hunseen ?_⟩
        rw [h.seen, List.mem_toFinset]
        exact hmem
  · rintro ⟨hvalid, hnew⟩
    rw [h.push_new hvalid hnew]

/-- A refused message changes nothing. -/
lemma push_refused (h : (inbox.push e now).1 ≠ .ok ()) : (inbox.push e now).2 = inbox := by
  unfold push at h ⊢
  cases hvalid : e.validate now with
  | error error => rfl
  | ok u =>
    rw [hvalid] at h
    simp only at h ⊢
    split
    · rfl
    next hunseen =>
      rw [if_neg hunseen] at h
      exact absurd rfl h

lemma Ordered.push (h : Ordered inbox) : Ordered (inbox.push e now).2 := by
  by_cases hok : (inbox.push e now).1 = .ok ()
  · obtain ⟨hvalid, hnew⟩ := h.push_eq_ok.mp hok
    rw [h.push_new hvalid hnew]
    refine ⟨rfl, ?_, length_pushWithin_le (by decide) h.length_le _⟩
    have hnodup : (inbox.seenOrder ++ [e.id]).Nodup := by
      rw [← List.concat_eq_append]
      exact h.nodup.concat hnew
    show (pushWithin _ _ _).Nodup
    rw [pushWithin_eq_drop (by decide) h.length_le]
    exact (List.drop_sublist _ _).nodup hnodup
  · rw [push_refused hok]
    exact h

/-! ## The two conditions -/

/-- What was accepted, and when. -/
abbrev Log := List (CommunicationEnvelope × UInt64)

/-- The time of a call. -/
def Call.time : Call → Option UInt64
  | .push _ now => some now
  | .drain => none

/-- The clock after a list of calls. -/
def clock (calls : List Call) : UInt64 := ((calls.filterMap Call.time).getLast?).getD 0

/-- The clock does not go back. -/
def Clocked (calls : List Call) : Prop := (calls.filterMap Call.time).Pairwise (· ≤ ·)

/-- From a time on: the id of an accepted message is not accepted again while the message is valid,
and no accepted message is valid when more than the maximal life time has gone by. -/
structure Protects (now : UInt64) (s : CommunicationInbox × Log) : Prop where
  once : ∀ a ∈ s.2, ∀ e later, e.id = a.1.id → now ≤ later → a.1.validate later = .ok () →
    (s.1.push e later).1 ≠ .ok ()
  short : ∀ a ∈ s.2, ∀ later : UInt64, a.2.toNat + maxSignalTtlSeconds < later.toNat →
    a.1.validate later ≠ .ok ()

/-- The inbox protects in every state of a run. -/
def Protected (calls : List Call) : Prop :=
  ∀ done rest, calls = done ++ rest → Protects (clock done) (run done)

/-- A push keeps the two windows in step: if it is accepted, the message ends within the maximal
life time from now, and an id that is at the front of a full window is that of messages whose time
is over. -/
def InStep (s : CommunicationInbox × Log) (e : CommunicationEnvelope) (now : UInt64) : Prop :=
  e.validate now = .ok () → e.id ∉ s.1.seenOrder →
    e.expiresAt.toNat ≤ now.toNat + maxSignalTtlSeconds ∧
    ∀ a ∈ s.2, s.1.seenOrder.length = maxSeenSignalIds → s.1.seenOrder.head? = some a.1.id →
      a.1.expiresAt.toNat < now.toNat

/-! ## Runs -/

lemma run_concat (calls : List Call) (c : Call) : run (calls ++ [c]) = call (run calls) c := by
  rw [run, List.foldl_append, List.foldl_cons, List.foldl_nil, run]

lemma clock_push (calls : List Call) (e : CommunicationEnvelope) (now : UInt64) :
    clock (calls ++ [.push e now]) = now := by
  rw [clock, List.filterMap_append]
  exact congrArg (Option.getD · 0) List.getLast?_concat

lemma clock_drain (calls : List Call) : clock (calls ++ [.drain]) = clock calls := by
  rw [clock, List.filterMap_append]
  exact congrArg (fun times => (List.getLast? times).getD 0) (List.append_nil _)

lemma Clocked.clock_le {done rest : List Call} {e : CommunicationEnvelope} {now : UInt64}
    (h : Clocked (done ++ .push e now :: rest)) : clock done ≤ now := by
  rw [Clocked, List.filterMap_append, List.pairwise_append] at h
  obtain ⟨_, _, hle⟩ := h
  rw [clock]
  cases hlast : (done.filterMap Call.time).getLast? with
  | none => exact UInt64.le_iff_toNat_le.mpr (Nat.zero_le _)
  | some last => exact hle last (List.mem_of_getLast? hlast) now List.mem_cons_self

section
variable {s : CommunicationInbox × Log}

lemma call_refused (h : (s.1.push e now).1 ≠ .ok ()) : call s (.push e now) = s := by
  have hsame := push_refused h
  unfold call
  rcases hpush : s.1.push e now with ⟨error | u, inbox⟩
  · rw [hpush] at hsame
    simp only [hpush]
    exact Prod.ext hsame rfl
  · rw [hpush] at h
    exact absurd rfl h

/-- The inbox is in order, and every message accepted was valid then. -/
structure Reached (s : CommunicationInbox × Log) : Prop where
  ordered : Ordered s.1
  accepted : ∀ a ∈ s.2, a.1.validate a.2 = .ok ()

lemma call_accepted (h : Reached s) (hvalid : e.validate now = .ok ())
    (hnew : e.id ∉ s.1.seenOrder) :
    (call s (.push e now)).1.seenOrder = pushWithin maxSeenSignalIds s.1.seenOrder e.id ∧
      (call s (.push e now)).2 = s.2 ++ [(e, now)] := by
  unfold call
  simp only [h.ordered.push_new hvalid hnew, true_and]

lemma Reached.call (h : Reached s) (c : Call) : Reached (CommunicationInbox.call s c) := by
  cases c with
  | drain => exact ⟨⟨h.ordered.seen, h.ordered.nodup, h.ordered.length_le⟩, h.accepted⟩
  | push e now =>
    have hordered : Ordered (s.1.push e now).2 := h.ordered.push
    rcases hpush : s.1.push e now with ⟨error | u, inbox⟩ <;> rw [hpush] at hordered <;>
      simp only [CommunicationInbox.call, hpush]
    · exact ⟨hordered, h.accepted⟩
    · refine ⟨hordered, List.forall_mem_append.mpr ⟨h.accepted, ?_⟩⟩
      refine List.forall_mem_singleton.mpr (h.ordered.push_eq_ok.mp ?_).1
      rw [hpush]

lemma reached_run (calls : List Call) : Reached (run calls) := by
  induction calls using List.reverseRecOn with
  | nil =>
    exact ⟨⟨rfl, List.nodup_nil, Nat.zero_le _⟩, List.forall_mem_nil _⟩
  | append_singleton calls c ih =>
    rw [run_concat]
    exact ih.call c

/-- An inbox protects when every accepted message is short and remembered until its end. -/
lemma Reached.protects_iff (h : Reached s) : Protects now s ↔
    (∀ a ∈ s.2, now.toNat ≤ a.1.expiresAt.toNat → a.1.id ∈ s.1.seenOrder) ∧
    ∀ a ∈ s.2, a.1.expiresAt.toNat ≤ a.2.toNat + maxSignalTtlSeconds := by
  constructor
  · rintro ⟨honce, hshort⟩
    refine ⟨fun a ha hle => ?_, fun a ha => ?_⟩
    · by_contra hforgotten
      have hvalid := (CommunicationEnvelope.validate_iff (h.accepted a ha)).mpr hle
      exact honce a ha a.1 now rfl (UInt64.le_refl now) hvalid
        (h.ordered.push_eq_ok.mpr ⟨hvalid, hforgotten⟩)
    · by_contra hlong
      exact hshort a ha a.1.expiresAt (Nat.lt_of_not_le hlong)
        ((CommunicationEnvelope.validate_iff (h.accepted a ha)).mpr le_rfl)
  · rintro ⟨hkept, hends⟩
    constructor
    · intro a ha e later hid hle hvalid hpush
      have hend := (CommunicationEnvelope.validate_iff (h.accepted a ha)).mp hvalid
      obtain ⟨_, hnew⟩ := h.ordered.push_eq_ok.mp hpush
      rw [hid] at hnew
      exact hnew (hkept a ha ((UInt64.le_iff_toNat_le.mp hle).trans hend))
    · intro a ha later hlater hvalid
      have hend := (CommunicationEnvelope.validate_iff (h.accepted a ha)).mp hvalid
      have hbound := hends a ha
      omega

/-- A push that is accepted keeps the protection exactly when it is in step. -/
lemma Reached.protects_push (h : Reached s) {last : UInt64} (hprotects : Protects last s)
    (hle : last ≤ now) : Protects now (CommunicationInbox.call s (.push e now)) ↔ InStep s e now := by
  obtain ⟨hkept, hends⟩ := h.protects_iff.mp hprotects
  have hlater : ∀ a ∈ s.2, now.toNat ≤ a.1.expiresAt.toNat → a.1.id ∈ s.1.seenOrder :=
    fun a ha hend => hkept a ha ((UInt64.le_iff_toNat_le.mp hle).trans hend)
  by_cases hok : (s.1.push e now).1 = .ok ()
  · obtain ⟨hvalid, hnew⟩ := h.ordered.push_eq_ok.mp hok
    obtain ⟨horder, hlog⟩ := call_accepted h hvalid hnew
    -- which of the ids before stay
    have hstays : ∀ a ∈ s.2, a.1.id ∈ s.1.seenOrder →
        (a.1.id ∈ pushWithin maxSeenSignalIds s.1.seenOrder e.id ↔
          ¬ (s.1.seenOrder.length = maxSeenSignalIds ∧ s.1.seenOrder.head? = some a.1.id)) := by
      intro a _ hmem
      have hother : a.1.id ≠ e.id := fun heq => hnew (heq ▸ hmem)
      rw [mem_pushWithin]
      simp only [hother, or_false]
      split
      next hfull =>
        have heq := le_antisymm h.ordered.length_le hfull
        simp only [heq, true_and]
        obtain ⟨old, rest, hsplit⟩ := List.exists_cons_of_ne_nil (List.ne_nil_of_mem hmem)
        have hnodup := h.ordered.nodup
        rw [hsplit] at hmem hnodup ⊢
        rw [List.tail_cons, List.head?_cons, Option.some.injEq]
        constructor
        · rintro hrest rfl
          exact (List.nodup_cons.mp hnodup).1 hrest
        · intro hne
          exact (List.mem_cons.mp hmem).resolve_left (Ne.symm hne)
      next hroom => exact iff_of_true hmem fun hfull => hroom hfull.1.ge
    rw [(h.call _).protects_iff, horder, hlog, InStep, List.forall_mem_append,
      List.forall_mem_append, List.forall_mem_singleton, List.forall_mem_singleton]
    constructor
    · rintro ⟨⟨hold, _⟩, _, hshort⟩ _ _
      refine ⟨hshort, fun a ha hfull hhead => ?_⟩
      by_contra hend
      have hend' := Nat.le_of_not_lt hend
      exact (hstays a ha (hlater a ha hend')).mp (hold a ha hend') ⟨hfull, hhead⟩
    · intro hstep
      obtain ⟨hshort, hover⟩ := hstep hvalid hnew
      refine ⟨⟨fun a ha hend => ?_, fun _ => ?_⟩, hends, hshort⟩
      · refine (hstays a ha (hlater a ha hend)).mpr fun hfull => ?_
        exact Nat.not_lt.mpr hend (hover a ha hfull.1 hfull.2)
      · exact mem_pushWithin.mpr (.inr rfl)
  · rw [call_refused hok]
    refine iff_of_true (h.protects_iff.mpr ⟨hlater, hends⟩) fun hvalid hnew => ?_
    exact absurd (h.ordered.push_eq_ok.mpr ⟨hvalid, hnew⟩) hok

end

/-- **The inbox protects against replay exactly while its windows are in step.** For every sequence
of pushes and drains with a clock that does not go back: in every state reached, no id of an
accepted message is accepted again while the message is valid, and no accepted message is valid
after the maximal life time, exactly when every push is in step. -/
theorem replay_protected_iff (calls : List Call) (hclock : Clocked calls) :
    Protected calls ↔ ∀ done e now rest, calls = done ++ .push e now :: rest →
      InStep (run done) e now := by
  constructor
  · intro hprotected done e now rest hsplit
    have hbefore := hprotected done _ hsplit
    have hafter := hprotected (done ++ [.push e now]) rest (by
      rw [hsplit, List.append_assoc, List.singleton_append])
    rw [hsplit] at hclock
    rw [run_concat, clock_push] at hafter
    exact ((reached_run done).protects_push hbefore hclock.clock_le).mp hafter
  · intro hsteps done
    induction done using List.reverseRecOn with
    | nil =>
      exact fun _ _ => (reached_run []).protects_iff.mpr
        ⟨List.forall_mem_nil _, List.forall_mem_nil _⟩
    | append_singleton done c ih =>
      intro rest hsplit
      rw [List.append_assoc, List.singleton_append] at hsplit
      have hbefore := ih _ hsplit
      rw [run_concat]
      cases c with
      | drain =>
        rw [clock_drain]
        exact ((reached_run done).call .drain).protects_iff.mpr
          ((reached_run done).protects_iff.mp hbefore)
      | push e now =>
        rw [clock_push]
        rw [hsplit] at hclock
        exact ((reached_run done).protects_push hbefore hclock.clock_le).mpr
          (hsteps done e now rest hsplit)

/-! ### An invitation -/

/-- An invitation to a call, for a minute. -/
def invitation (createdAt : UInt64) : CommunicationEnvelope where
  id := "call_0123456789abcdef"
  senderPeerId := ""
  targetPeerId := "12D3KooWTarget"
  kind := .callInvite
  createdAt
  expiresAt := createdAt + 60
  encryptedPayloadHex := "aabbcc"

/-- An invitation from now on and its copy. -/
theorem replay_protected_iff_invitation :
    Protected [.push (invitation 100) 110, .push (invitation 100) 120] := by
  refine (replay_protected_iff _ (by simp [Clocked, Call.time])).mpr ?_
  intro done e now rest hsplit hvalid hnew
  rcases done with _ | ⟨c, _ | ⟨c', done⟩⟩
  · obtain ⟨rfl, rfl⟩ := Call.push.inj (List.cons.inj hsplit).1
    exact ⟨by decide, List.forall_mem_nil _⟩
  · -- the copy is refused
    obtain ⟨hfirst, hrest⟩ := List.cons.inj hsplit
    obtain ⟨rfl, rfl⟩ := Call.push.inj (List.cons.inj hrest).1
    subst hfirst
    exact absurd (by decide) hnew
  · have hlength := congrArg List.length hsplit
    simp at hlength

/-- An invitation for a later time is accepted now, and valid sixteen minutes after. -/
theorem long_lived_accepted : ¬ Protected [.push (invitation 1000) 0] := by
  intro hprotected
  have hprotects := hprotected [.push (invitation 1000) 0] [] rfl
  exact hprotects.short (invitation 1000, 0) (by decide) 1000 (by decide) (by decide)

end CommunicationInbox

end IeumChain
