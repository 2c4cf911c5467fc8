import Mathlib.Logic.Function.Basic
import Mathlib.Data.List.Nodup
import Mathlib.Data.List.Perm.Subperm
import Exio.Cyclic
import Exio.Steps
/-!
# Registry — the slots of the sessions, and the sessions that have expired

The sessions of an `AdminInterfaceImpl` stand in an array of `M + 1` slots, of which slot 0 is never used; the slot's index
is the session's id.  `createNewSession` looks for a free slot from a cursor on, once round, and claims it in a later
critical section; `session_closed` frees the slot and then, in another one, puts the session on the list of expired
sessions; `session_cleanup` deletes those of the list that can be.  `createNewSession` is serialised by a lock of its own.

A session object is named by the number of sessions created before it.  `M` is arbitrary; in the program it is 2000.
-/
namespace Exio

/-- `std::runtime_error`. -/
structure RuntimeError where
  what : String
deriving DecidableEq

/-! ## The slots -/

/-- The registry (`m_sessions`); `id` is what each session object was made with, `closed` the sessions whose slot has been
freed, and `claimed` the slot a thread in `createNewSession` found. -/
structure Slots where
  reg          : Nat → Option Nat
  next         : Nat
  createdCount : Nat
  id           : Nat → Nat
  closed       : Nat → Bool
  claimed      : Option Nat

/-- The search of `createNewSession` among `M` sessions: the index found, or 0, and `m_sessions.next`. -/
def searchSlot (M : Nat) (reg : Nat → Option Nat) : Nat → Nat → Nat × Nat
  | 0, next        => (0, next)
  | fuel + 1, next =>
    let index := if next ≠ 0 ∧ reg next = none then next else 0
    let next := if next + 1 > M then 0 else next + 1
    if index ≠ 0 then (index, next) else searchSlot M reg fuel next

/-- A slot that can be given to a session. -/
def Free (reg : Nat → Option Nat) (i : Nat) : Prop := i ≠ 0 ∧ reg i = none

instance (reg : Nat → Option Nat) : DecidablePred (Free reg) := fun _ => inferInstanceAs (Decidable (_ ∧ _))

/-- **The search walks the circle of the slots.** -/
theorem searchSlot_eq (M : Nat) (reg : Nat → Option Nat) : ∀ (fuel next : Nat), searchSlot M reg fuel next =
    ((Cyclic.search (M + 1) (Free reg) fuel next).1.getD 0, (Cyclic.search (M + 1) (Free reg) fuel next).2)
  | 0, _ => rfl
  | fuel + 1, next => by
    have hnext : (if next + 1 > M then 0 else next + 1) = Cyclic.next (M + 1) next := by
      unfold Cyclic.next
      split <;> split <;> omega
    unfold searchSlot Cyclic.search
    simp only [hnext]
    by_cases hfree : Free reg next
    · have hfree' : next ≠ 0 ∧ reg next = none := hfree
      rw [if_pos hfree, if_pos hfree', if_pos hfree.1]
      rfl
    · have hfree' : ¬ (next ≠ 0 ∧ reg next = none) := hfree
      rw [if_neg hfree, if_neg hfree', if_neg (not_not.2 rfl)]
      exact searchSlot_eq M reg fuel _

namespace Slots

def new : Slots := ⟨fun _ => none, 1, 0, fun _ => 0, fun _ => false, none⟩

def search (M : Nat) (s : Slots) : Nat × Nat := searchSlot M s.reg (M + 1) s.next

/-- What `createNewSession` makes of the search. -/
def findSlot (M : Nat) (s : Slots) : Except RuntimeError Nat :=
  if (s.search M).1 = 0 then .error ⟨"no more sessions allowed"⟩ else .ok (s.search M).1

theorem toOption_findSlot (M : Nat) (s : Slots) :
    (s.findSlot M).toOption = if (s.search M).1 = 0 then none else some (s.search M).1 := by
  unfold findSlot
  split <;> rfl

/-- The critical section of the search. -/
def claim (M : Nat) (s : Slots) : Slots := { s with next := (s.search M).2, claimed := (s.findSlot M).toOption }

/-- The critical section that makes the session and registers it. -/
def register (s : Slots) (i : Nat) : Slots :=
  { reg          := Function.update s.reg i (some s.createdCount)
    next         := s.next
    createdCount := s.createdCount + 1
    id           := Function.update s.id s.createdCount i
    closed       := Function.update s.closed s.createdCount false
    claimed      := none }

/-- The critical section of `session_closed` that resets the slot of the session's id. -/
def free (s : Slots) (o : Nat) : Slots :=
  { s with reg := Function.update s.reg (s.id o) none, closed := Function.update s.closed o true }

/-- The ids are indices of slots, a slot in use holds a session of its id that is not closed, and a claimed slot is free. -/
structure Inv (M : Nat) (s : Slots) : Prop where
  next    : s.next ≤ M
  ids     : ∀ o, o < s.createdCount → 0 < s.id o ∧ s.id o ≤ M
  slot    : ∀ i o, s.reg i = some o → o < s.createdCount ∧ s.id o = i ∧ s.closed o = false
  live    : ∀ o, o < s.createdCount → s.closed o = false → s.reg (s.id o) = some o
  claimed : ∀ i, s.claimed = some i → 0 < i ∧ i ≤ M ∧ s.reg i = none

theorem new_inv {M : Nat} (hM : 1 ≤ M) : new.Inv M where
  next := hM
  ids _ h := absurd h (Nat.not_lt_zero _)
  slot _ _ h := by cases h
  live _ h := absurd h (Nat.not_lt_zero _)
  claimed _ h := by cases h

/-! ### The search -/

theorem search_fst_eq_zero_iff {M : Nat} {s : Slots} (h : s.next ≤ M) :
    (s.search M).1 = 0 ↔ ∀ i, 1 ≤ i → i ≤ M → s.reg i ≠ none := by
  have hlt : s.next < M + 1 := Nat.lt_succ_of_le h
  have hnone := Cyclic.search_eq_none_iff (p := Free s.reg) hlt
  have hiff : (∀ i, 1 ≤ i → i ≤ M → s.reg i ≠ none) ↔ ∀ i < M + 1, ¬ Free s.reg i := by
    constructor
    · intro hall i hi hfree
      exact hall i (Nat.pos_of_ne_zero hfree.1) (Nat.le_of_lt_succ hi) hfree.2
    · intro hall i h1 hM hreg
      exact hall i (Nat.lt_succ_of_le hM) ⟨Nat.ne_of_gt h1, hreg⟩
  rw [hiff, ← hnone, search, searchSlot_eq]
  cases hs : (Cyclic.search (M + 1) (Free s.reg) (M + 1) s.next).1 with
  | none => simp
  | some i =>
    obtain ⟨d, -, -, hfree, -⟩ := (Cyclic.search_eq_some_iff hlt).1 hs
    simpa using hfree.1

theorem findSlot_eq_error_iff {M : Nat} {s : Slots} (h : s.next ≤ M) :
    s.findSlot M = .error ⟨"no more sessions allowed"⟩ ↔ ∀ i, 1 ≤ i → i ≤ M → s.reg i ≠ none := by
  rw [← search_fst_eq_zero_iff h, findSlot]
  split
  · rename_i h0
    exact iff_of_true rfl h0
  · rename_i h0
    exact iff_of_false (fun he => by cases he) h0

/-- **The slot found is the first free one**, in cyclic order from the cursor. -/
theorem findSlot_eq_ok_iff {M : Nat} {s : Slots} (h : s.next ≤ M) {i : Nat} :
    s.findSlot M = .ok i ↔ Cyclic.FirstFrom (M + 1) (Free s.reg) s.next i := by
  have hlt : s.next < M + 1 := Nat.lt_succ_of_le h
  rw [← Cyclic.search_eq_some_iff hlt, findSlot, search, searchSlot_eq]
  cases hs : (Cyclic.search (M + 1) (Free s.reg) (M + 1) s.next).1 with
  | none => simp
  | some j =>
    obtain ⟨d, -, -, hfree, -⟩ := (Cyclic.search_eq_some_iff hlt).1 hs
    simp [hfree.1]

theorem FirstFrom.free {M start i : Nat} {reg : Nat → Option Nat} (h : Cyclic.FirstFrom (M + 1) (Free reg) start i) :
    0 < i ∧ i ≤ M ∧ reg i = none := by
  obtain ⟨d, -, hi, hfree, -⟩ := h
  refine ⟨Nat.pos_of_ne_zero hfree.1, ?_, hfree.2⟩
  rw [hi]
  exact Nat.le_of_lt_succ (Cyclic.pos_lt (Nat.succ_pos M) start d)

/-! ### The critical sections keep the invariant -/

theorem Inv.claim {M : Nat} {s : Slots} (h : s.Inv M) : (s.claim M).Inv M := by
  refine { h with next := ?_, claimed := fun i hi => ?_ }
  · show (s.search M).2 ≤ M
    rw [search, searchSlot_eq]
    exact Nat.le_of_lt_succ (Cyclic.search_cursor_lt _ (Nat.lt_succ_of_le h.next))
  · refine FirstFrom.free ((findSlot_eq_ok_iff h.next).1 ?_)
    have hi' : (s.findSlot M).toOption = some i := hi
    cases hf : s.findSlot M with
    | error e => rw [hf] at hi'; cases hi'
    | ok j =>
      rw [hf] at hi'
      cases hi'
      rfl

theorem Inv.register {M : Nat} {s : Slots} (h : s.Inv M) {i : Nat} (hi : s.claimed = some i) : (s.register i).Inv M := by
  obtain ⟨hpos, hmax, hfree⟩ := h.claimed i hi
  have hid : ∀ o, o < s.createdCount → Function.update s.id s.createdCount i o = s.id o :=
    fun o ho => Function.update_of_ne (Nat.ne_of_lt ho) _ _
  have hclosed : ∀ o, o < s.createdCount → Function.update s.closed s.createdCount false o = s.closed o :=
    fun o ho => Function.update_of_ne (Nat.ne_of_lt ho) _ _
  refine ⟨h.next, fun o ho => ?_, fun i' o hr => ?_, fun o ho hopen => ?_, fun _ hc => by cases hc⟩
  · rcases Nat.lt_succ_iff_lt_or_eq.1 ho with ho' | rfl
    · simp only [Slots.register, hid o ho']
      exact h.ids o ho'
    · simp only [Slots.register, Function.update_self]
      exact ⟨hpos, hmax⟩
  · simp only [Slots.register, Function.update_apply] at hr
    split at hr
    · rename_i hii
      cases hr
      simp only [Slots.register, Function.update_self]
      exact ⟨Nat.lt_succ_self _, hii.symm, trivial⟩
    · obtain ⟨h1, h2, h3⟩ := h.slot i' o hr
      simp only [Slots.register, hid o h1, hclosed o h1]
      exact ⟨Nat.lt_succ_of_lt h1, h2, h3⟩
  · rcases Nat.lt_succ_iff_lt_or_eq.1 ho with ho' | rfl
    · simp only [Slots.register, hid o ho', hclosed o ho'] at hopen ⊢
      have hlive := h.live o ho' hopen
      rw [Function.update_of_ne]
      · exact hlive
      · rintro rfl
        rw [hfree] at hlive
        cases hlive
    · simp only [Slots.register, Function.update_self]

/-- The slot freed is the session's own, and no other session's. -/
theorem Inv.free {M : Nat} {s : Slots} (h : s.Inv M) {o : Nat} (ho : o < s.createdCount) (hopen : s.closed o = false) :
    (s.free o).Inv M := by
  have hreg := h.live o ho hopen
  refine ⟨h.next, h.ids, fun i o' hi => ?_, fun o' ho' hopen' => ?_, fun i hi => ?_⟩
  · simp only [Slots.free, Function.update_apply] at hi
    split at hi
    · cases hi
    · rename_i hii
      obtain ⟨h1, h2, h3⟩ := h.slot i o' hi
      refine ⟨h1, h2, ?_⟩
      simp only [Slots.free]
      rw [Function.update_of_ne]
      · exact h3
      · rintro rfl
        exact hii h2.symm
  · simp only [Slots.free] at hopen' ⊢
    have hne : o' ≠ o := by
      rintro rfl
      rw [Function.update_self] at hopen'
      cases hopen'
    rw [Function.update_of_ne hne] at hopen'
    have hlive := h.live o' ho' hopen'
    rw [Function.update_of_ne]
    · exact hlive
    · intro heq
      rw [heq, hreg] at hlive
      exact hne (Option.some.inj hlive).symm
  · obtain ⟨h1, h2, h3⟩ := h.claimed i hi
    refine ⟨h1, h2, ?_⟩
    simp only [Slots.free, Function.update_apply]
    split
    · rfl
    · exact h3

end Slots

/-! ## The expired sessions -/

/-- The registry, the sessions between the two critical sections of `session_closed`, the list of the expired ones, and
those that have been deleted. -/
structure Registry where
  slots   : Slots
  closing : List Nat
  expired : List Nat
  deleted : List Nat

def Registry.new : Registry := ⟨.new, [], [], []⟩

/-- What `session_cleanup` meets in an expired session: `safe_to_delete` says yes, or no, or something throws before the
session is deleted. -/
inductive Verdict where
  | safe
  | later
  | throws
deriving DecidableEq

/-- One turn of the loop of `session_cleanup`, on `delete_later` and the sessions deleted. -/
def cleanupOne (verdict : Nat → Verdict) (acc : List Nat × List Nat) (o : Nat) : List Nat × List Nat :=
  match verdict o with
  | .safe   => (acc.1, acc.2 ++ [o])
  | .later  => (acc.1 ++ [o], acc.2)
  | .throws => acc

inductive RegistryAct where
  | findSlot
  | register
  /-- The constructor of the session throws. -/
  | abandon
  | freeSlot (o : Nat)
  | expire (o : Nat)
  | cleanup (verdict : Nat → Verdict)

/-- **One critical section**; `session_closed` is called at most once for a session. -/
def registryStep (M : Nat) (s : Registry) : RegistryAct → Option Registry
  | .findSlot => if s.slots.claimed = none then some { s with slots := s.slots.claim M } else none
  | .register =>
    match s.slots.claimed with
    | none   => none
    | some i => some { s with slots := s.slots.register i }
  | .abandon =>
    match s.slots.claimed with
    | none   => none
    | some _ => some { s with slots := { s.slots with claimed := none } }
  | .freeSlot o =>
    if o < s.slots.createdCount ∧ s.slots.closed o = false then
      some { s with slots := s.slots.free o, closing := s.closing ++ [o] }
    else none
  | .expire o =>
    if o ∈ s.closing then some { s with closing := s.closing.erase o, expired := s.expired ++ [o] } else none
  | .cleanup verdict =>
    let r := s.expired.foldl (cleanupOne verdict) ([], s.deleted)
    some { s with expired := r.1, deleted := r.2 }

/-- The sessions on their way out: each at one place, and none in a slot. -/
structure Registry.Inv (M : Nat) (s : Registry) : Prop where
  slots  : s.slots.Inv M
  nodup  : (s.closing ++ s.expired ++ s.deleted).Nodup
  closed : ∀ o ∈ s.closing ++ s.expired ++ s.deleted, o < s.slots.createdCount ∧ s.slots.closed o = true

theorem Registry.new_inv {M : Nat} (hM : 1 ≤ M) : Registry.new.Inv M :=
  ⟨Slots.new_inv hM, List.nodup_nil, fun _ h => by cases h⟩

/-- Sessions on their way out go from one place to the next, or are lost. -/
theorem Registry.Inv.subperm {M : Nat} {s t : Registry} (h : s.Inv M) (hslots : t.slots = s.slots)
    (hsub : (t.closing ++ t.expired ++ t.deleted).Subperm (s.closing ++ s.expired ++ s.deleted)) : t.Inv M := by
  refine ⟨hslots ▸ h.slots, ?_, fun o ho => hslots ▸ h.closed o (hsub.subset ho)⟩
  obtain ⟨l, hperm, hl⟩ := hsub
  exact hperm.nodup_iff.1 (h.nodup.sublist hl)

theorem cleanupOne_subperm (verdict : Nat → Verdict) (acc : List Nat × List Nat) (o : Nat) (os : List Nat) :
    ((cleanupOne verdict acc o).1 ++ os ++ (cleanupOne verdict acc o).2).Subperm (acc.1 ++ o :: os ++ acc.2) := by
  unfold cleanupOne
  split
  · refine List.Perm.subperm ?_
    rw [← List.append_assoc, List.append_assoc acc.1, List.append_assoc acc.1, List.append_assoc acc.1]
    refine List.Perm.append_left acc.1 ?_
    exact List.perm_append_singleton o (os ++ acc.2)
  · rw [List.append_assoc acc.1 [o] os, List.singleton_append]
  · refine List.Sublist.subperm (List.Sublist.append_right ?_ acc.2)
    exact List.Sublist.append_left (List.sublist_cons_self o os) acc.1

/-- The loop of `session_cleanup` hands every expired session on at most once. -/
theorem foldl_cleanupOne_subperm (verdict : Nat → Verdict) : ∀ (os : List Nat) (acc : List Nat × List Nat),
    ((os.foldl (cleanupOne verdict) acc).1 ++ (os.foldl (cleanupOne verdict) acc).2).Subperm (acc.1 ++ os ++ acc.2)
  | [], acc => by rw [List.append_nil, List.foldl_nil]
  | o :: os, acc =>
    (foldl_cleanupOne_subperm verdict os (cleanupOne verdict acc o)).trans (cleanupOne_subperm verdict acc o os)

/-- **Every critical section keeps the sessions at one place each.** -/
theorem registryStep_inv {M : Nat} {s t : Registry} (h : s.Inv M) : ∀ {a : RegistryAct}, registryStep M s a = some t →
    t.Inv M
  | .findSlot, hs => by
    simp only [registryStep] at hs
    split at hs
    · cases hs
      exact ⟨h.slots.claim, h.nodup, h.closed⟩
    · cases hs
  | .register, hs => by
    simp only [registryStep] at hs
    split at hs
    · cases hs
    · rename_i i hi
      cases hs
      refine ⟨h.slots.register hi, h.nodup, fun o ho => ?_⟩
      obtain ⟨hlt, hclosed⟩ := h.closed o ho
      refine ⟨Nat.lt_succ_of_lt hlt, ?_⟩
      simp only [Slots.register, Function.update_of_ne (Nat.ne_of_lt hlt)]
      exact hclosed
  | .abandon, hs => by
    simp only [registryStep] at hs
    split at hs
    · cases hs
    · cases hs
      exact ⟨{ h.slots with claimed := fun i hi => by cases hi }, h.nodup, h.closed⟩
  | .freeSlot o, hs => by
    simp only [registryStep] at hs
    split at hs
    · rename_i hg
      cases hs
      -- a session that is not closed is not on its way out yet
      have hnew : o ∉ s.closing ++ s.expired ++ s.deleted := by
        intro hm
        have hclosed := (h.closed o hm).2
        rw [hg.2] at hclosed
        cases hclosed
      have hperm : (s.closing ++ [o] ++ s.expired ++ s.deleted).Perm (o :: (s.closing ++ s.expired ++ s.deleted)) := by
        rw [List.append_assoc s.closing, List.append_assoc s.closing, List.append_assoc s.closing]
        exact List.perm_middle
      refine ⟨h.slots.free hg.1 hg.2, hperm.nodup_iff.2 (List.nodup_cons.2 ⟨hnew, h.nodup⟩), fun o' ho' => ?_⟩
      rcases List.mem_cons.1 (hperm.mem_iff.1 ho') with rfl | ho'
      · exact ⟨hg.1, Function.update_self _ _ _⟩
      · obtain ⟨hlt, hclosed⟩ := h.closed o' ho'
        refine ⟨hlt, ?_⟩
        simp only [Slots.free, Function.update_apply]
        split
        · rfl
        · exact hclosed
    · cases hs
  | .expire o, hs => by
    simp only [registryStep] at hs
    split at hs
    · rename_i ho
      cases hs
      refine h.subperm rfl (List.Perm.subperm ?_)
      refine List.Perm.append_right s.deleted ?_
      refine List.Perm.trans ?_ (List.Perm.append_right s.expired (List.perm_cons_erase ho).symm)
      rw [← List.append_assoc]
      exact List.perm_append_singleton o (s.closing.erase o ++ s.expired)
    · cases hs
  | .cleanup verdict, hs => by
    simp only [registryStep] at hs
    cases hs
    refine h.subperm rfl ?_
    simp only [List.append_assoc]
    refine (List.subperm_append_left s.closing).2 ?_
    exact (foldl_cleanupOne_subperm verdict s.expired ([], s.deleted)).trans (List.Subperm.refl _)

/-- **The discipline of the registry**, for every maximum and in every state of every interleaving: the cursor stays in
range; a slot in use is one of `1, …, M` and holds a session of its id, so that no two sessions in slots share an id;
`createNewSession` throws exactly if all slots are used when it searches, and otherwise finds the first free slot in cyclic
order from the cursor, which is still free when the session is put there; no session in a slot has expired or been deleted;
and no session is deleted twice. -/
theorem registry_discipline {M : Nat} (hM : 1 ≤ M) {s : Registry}
    (hs : Steps.Reaches (registryStep M) Steps.Always .new s) :
    s.slots.next ≤ M ∧
    (∀ i o, s.slots.reg i = some o → 1 ≤ i ∧ i ≤ M ∧ s.slots.id o = i) ∧
    (∀ i j o o', s.slots.reg i = some o → s.slots.reg j = some o' → s.slots.id o = s.slots.id o' → o = o') ∧
    (s.slots.findSlot M = .error ⟨"no more sessions allowed"⟩ ↔ ∀ i, 1 ≤ i → i ≤ M → s.slots.reg i ≠ none) ∧
    (∀ i, s.slots.findSlot M = .ok i ↔ Cyclic.FirstFrom (M + 1) (Free s.slots.reg) s.slots.next i) ∧
    (∀ i t, s.slots.claimed = some i → registryStep M s .register = some t →
      s.slots.reg i = none ∧ t.slots.reg i = some s.slots.createdCount ∧ t.slots.id s.slots.createdCount = i) ∧
    (∀ i o, s.slots.reg i = some o → o ∉ s.closing ∧ o ∉ s.expired ∧ o ∉ s.deleted) ∧
    s.deleted.Nodup := by
  have h : s.Inv M := hs.invariant (Registry.new_inv hM) (fun h _ hst => registryStep_inv h hst)
  refine ⟨h.slots.next, fun i o hi => ?_, fun i j o o' hi hj hid => ?_, Slots.findSlot_eq_error_iff h.slots.next,
    fun i => Slots.findSlot_eq_ok_iff h.slots.next, fun i t hi hst => ?_, fun i o hi => ?_, ?_⟩
  · obtain ⟨hlt, rfl, -⟩ := h.slots.slot i o hi
    exact ⟨(h.slots.ids o hlt).1, (h.slots.ids o hlt).2, rfl⟩
  · rw [(h.slots.slot i o hi).2.1, (h.slots.slot j o' hj).2.1] at hid
    rw [hid, hj] at hi
    exact (Option.some.inj hi).symm
  · simp only [registryStep, hi, Option.some.injEq] at hst
    subst hst
    exact ⟨(h.slots.claimed i hi).2.2, Function.update_self _ _ _, Function.update_self _ _ _⟩
  · have hout : o ∉ s.closing ++ s.expired ++ s.deleted := by
      intro hm
      have hclosed := (h.closed o hm).2
      rw [(h.slots.slot i o hi).2.2] at hclosed
      cases hclosed
    simpa [not_or, and_assoc] using hout
  · exact h.nodup.sublist (List.sublist_append_right _ _)

/-- Two slots: both are taken, the first session closes, expires and is deleted, and a third one gets its slot. -/
def sampleRegistryActs : List RegistryAct :=
  [.findSlot, .register, .findSlot, .register, .findSlot, .freeSlot 0, .findSlot, .expire 0, .register,
    .cleanup fun _ => .safe]

theorem registry_discipline_sample : ∃ s, Steps.run (registryStep 2) .new sampleRegistryActs = some s ∧
    s.slots.reg 1 = some 2 ∧ s.slots.reg 2 = some 1 ∧ s.deleted = [0] ∧
    s.slots.findSlot 2 = .error ⟨"no more sessions allowed"⟩ ∧ s.deleted.Nodup := by
  have hrun : (Steps.run (registryStep 2) .new sampleRegistryActs).map
      (fun s => (s.slots.reg 1, s.slots.reg 2, s.deleted)) = some (some 2, some 1, [0]) := by decide +kernel
  obtain ⟨s, hs, ht⟩ := Option.map_eq_some_iff.1 hrun
  simp only [Prod.mk.injEq] at ht
  obtain ⟨-, -, -, hfull, -, -, -, hnodup⟩ := registry_discipline (by decide) (Steps.reaches_of_run _ hs)
  refine ⟨s, hs, ht.1, ht.2.1, ht.2.2, hfull.2 fun i h1 h2 => ?_, hnodup⟩
  rcases Nat.lt_or_eq_of_le h2 with hlt | rfl
  · obtain rfl : i = 1 := Nat.le_antisymm (Nat.le_of_lt_succ hlt) h1
    rw [ht.1]
    exact Option.some_ne_none 2
  · rw [ht.2.1]
    exact Option.some_ne_none 1

end Exio
