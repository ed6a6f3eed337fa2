import Niuchacz.DoublyLinkedList.RingWork

namespace Niuchacz.DoublyLinkedList.Concurrent

open Lib.LinkedRing Lib.Locks

/-!
# Who may touch what

The invariant of the shared list.  Every address has one place (`Shared.place`): on a ring, or
in the hands of one thread, or free.  A thread writes links only of its own entry and of rings
whose lock it holds, so threads never meet.

* `Pc.holds`, `Pc.work`, `Pc.own`, `Pc.target` — what a program point says about locks, link
  updates, the thread's own entry, and the entry it is about to delete.
* `Knows` — what else a thread in the middle of a function relies on.
* `Inv` — the invariant; the lemmas after it re-establish it after each kind of step.
-/

/-! ### What a program point says -/

/-- The locks a thread holds. -/
def Pc.holds (k : Side) : Pc → Bool
  | .addLink _ _ | .addUnlock _ | .findStart _ | .findTest _ _ | .findUnlock _ | .delUnlink _ _
  | .delTest _ | .delMark _ | .delLockDeleted _ | .delUnlock _ => k = .active
  | .delLink _ _ | .delUnlockDeleted _ => true
  | .sweepStart _ | .sweepTest _ _ | .sweepLoad _ _ | .sweepNext _ _ | .sweepSave _ _
  | .sweepUnlink _ _ _ _ | .sweepFree _ _ _ | .sweepUnlock _ => k = .deleted
  | _ => false

/-- The link update a thread is making on a ring. -/
def Pc.work (k : Side) : Pc → Work
  | .addLink p n => if k = .active then .link p n else .none
  | .delUnlink p n => if k = .active then .unlink p n else .none
  | .delLink p n => if k = .deleted then .link p n else .none
  | .sweepUnlink _ q _ n => if k = .deleted then .unlink q n else .none
  | _ => .none

/-- The entry that is in the hands of the thread. -/
def Pc.own : Pc → Option Ptr
  | .addLock p | .delTest p | .delMark p | .delLockDeleted p | .sweepFree _ p _ => some p
  | .addLink p n | .delLink p n => if n ≤ 2 then some p else none
  | .delUnlink p n | .sweepUnlink _ p _ n => if n = 0 then none else some p
  | _ => none

/-- The entry the thread is adding. -/
def Pc.adding : Pc → Option Ptr
  | .addLock p => some p
  | .addLink p n => if n ≤ 2 then some p else none
  | _ => none

/-- The entry the thread is about to take off the active ring. -/
def Pc.target : Pc → Option Ptr
  | .delLock p => some p
  | .delUnlink p n => if n = 0 then some p else none
  | _ => none

/-- Only who holds the lock of a ring is at work on it. -/
theorem work_eq_none_of_not_holds (k : Side) (p : Pc) (hp : p.holds k = false) :
    p.work k = .none := by
  cases p <;> cases k <;> first | rfl | cases hp

/-- The entry that is being added belongs to the thread. -/
theorem own_of_adding {p : Pc} {x : Ptr} (h : p.adding = some x) : p.own = some x := by
  cases p <;> first | exact h | cases h

variable {ι : Type}

/-- Nobody holds a reference to `q`. -/
def NoHolder (s : Shared ι) (q : Ptr) : Prop := ∀ y ∈ s.holders, y.2 ≠ q

/-- The entries a sweep still has to free are among `zs`, and nobody holds them. -/
def Due (s : Shared ι) (due zs : List Ptr) : Prop := ∀ q ∈ due, q ∈ zs ∧ NoHolder s q

/-- What a thread relies on besides locks and places. -/
def Knows (s : Shared ι) (t : ι) : Pc → Prop
  | .addLock p => ∀ y ∈ s.holders, y.2 = p → y.1 = t
  | .addLink p n => n ≤ 2 → ∀ y ∈ s.holders, y.2 = p → y.1 = t
  | .findTest _ p => p ∈ s.head .active :: s.ring .active
  | .findUnlock (some q) => q ∈ s.ring .active
  | .delLock p | .delUnlink p _ | .delTest p => (t, p) ∈ s.holders
  | .delLockDeleted p => s.heap.isDeleted p = true
  | .delLink p n => n ≤ 2 → s.heap.isDeleted p = true
  | .sweepStart due => Due s due (s.ring .deleted)
  | .sweepTest due p => ∃ ys zs, s.ring .deleted = ys ++ zs ∧ p = zs.headD (s.head .deleted) ∧
      Due s due zs
  | .sweepLoad due p => ∃ ys zs, s.ring .deleted = ys ++ p :: zs ∧ Due s due (p :: zs)
  | .sweepNext due p => ∃ ys zs, s.ring .deleted = ys ++ p :: zs ∧ Due s due zs
  | .sweepSave due p => NoHolder s p ∧
      ∃ ys zs, s.ring .deleted = ys ++ p :: zs ∧ Due s due (p :: zs)
  | .sweepUnlink due q pnext n => NoHolder s q ∧
      ∃ ys zs, s.ring .deleted = ys ++ (if n = 0 then q :: zs else zs) ∧
        pnext = zs.headD (s.head .deleted) ∧ Due s due (q :: zs)
  | .sweepFree due q pnext => NoHolder s q ∧
      ∃ ys zs, s.ring .deleted = ys ++ zs ∧ pnext = zs.headD (s.head .deleted) ∧
        Due s due (q :: zs)
  | .sweepUnlock due => due = []
  | _ => True

/-! ### The invariant -/

/-- The link update that the owner of a lock is making. -/
def State.work (s : State ι) (k : Side) : Work := viewOf s.sh.lock s.pc k (Pc.work k) .none

structure Inv (s : State ι) : Prop where
  excl : Exclusive Pc.holds s.sh.lock s.pc
  heads : ∀ k x, s.sh.place x = .head k ↔ x = s.sh.head k
  mem : ∀ k x, x ∈ s.sh.ring k ↔ s.sh.place x = .ring k
  rings : ∀ k, WorkOk s.sh.heap (s.sh.head k) (s.sh.ring k) (s.work k)
  alloc : ∀ x, s.sh.heap.allocated x = (s.sh.place x).isEntry
  own : ∀ t p, (s.pc t).own = some p → s.sh.place p = .thread t
  target : ∀ t p, (s.pc t).target = some p → s.sh.place p = .ring .active ∧ p ∈ s.sh.delCalled
  targetInj : ∀ t u p, (s.pc t).target = some p → (s.pc u).target = some p → t = u
  flags : ∀ x, s.sh.place x = .ring .deleted → s.sh.heap.isDeleted x = true
  refs : ∀ x, (s.sh.place x).isEntry = true →
    (s.sh.heap.references x).toNat = s.sh.holders.countP (·.2 = x)
  held : ∀ y ∈ s.sh.holders, (s.sh.place y.2).isEntry = true
  placed : ∀ x, (s.sh.place x).isEntry = true → x ∉ s.sh.delCalled →
    s.sh.place x = .ring .active ∨ ∃ t, (s.pc t).adding = some x
  knows : ∀ t, Knows s.sh t (s.pc t)

/-- What other threads know survives a step that leaves alone what they rely on. -/
theorem Knows.congr {s s' : Shared ι} {u : ι} {p : Pc} (hk : Knows s u p)
    (hplist : s'.plist = s.plist) (hring : ∀ k, p.holds k = true → s'.ring k = s.ring k)
    (hdel : ∀ q, p.own = some q → s.heap.isDeleted q = true → s'.heap.isDeleted q = true)
    (hkeep : ∀ q, (u, q) ∈ s.holders → (u, q) ∈ s'.holders)
    (hnew : ∀ y ∈ s'.holders, y ∈ s.holders ∨
      (p.own ≠ some y.2 ∧ (p.holds .deleted = true → y.2 ∉ s.ring .deleted))) :
    Knows s' u p := by
  have hhead : ∀ k, s'.head k = s.head k := by
    intro k
    cases k <;> simp [Shared.head, hplist]
  -- nobody new holds an entry that is on the deleted ring or in the hands of this thread
  have hno : ∀ q, p.own = some q ∨ (p.holds .deleted = true ∧ q ∈ s.ring .deleted) →
      NoHolder s q → NoHolder s' q := by
    intro q hq hn y hy he
    rcases hnew y hy with hy | ⟨hown, hoff⟩
    · exact hn y hy he
    · rw [he] at hown hoff
      rcases hq with hq | ⟨hd, hq⟩
      · exact hown hq
      · exact hoff hd hq
  have hdue : ∀ due zs, p.holds .deleted = true →
      (∀ q ∈ zs, p.own = some q ∨ q ∈ s.ring .deleted) → Due s due zs → Due s' due zs := by
    intro due zs hd hsub hdue q hq
    obtain ⟨hz, hn⟩ := hdue q hq
    refine ⟨hz, hno q ?_ hn⟩
    rcases hsub q hz with h | h
    · exact Or.inl h
    · exact Or.inr ⟨hd, h⟩
  cases p with
  | addLock p =>
    intro y hy he
    rcases hnew y hy with hy | ⟨hown, -⟩
    · exact hk y hy he
    · exact absurd (by rw [he]; rfl) hown
  | addLink p n =>
    intro hn y hy he
    rcases hnew y hy with hy | ⟨hown, -⟩
    · exact hk hn y hy he
    · exact absurd (by rw [he]; simp [Pc.own, hn]) hown
  | findTest key p =>
    show p ∈ s'.head .active :: s'.ring .active
    rw [hhead, hring .active rfl]
    exact hk
  | findUnlock r =>
    cases r with
    | none => trivial
    | some q =>
      show q ∈ s'.ring .active
      rw [hring .active rfl]
      exact hk
  | delLock p => exact hkeep p hk
  | delUnlink p n => exact hkeep p hk
  | delTest p => exact hkeep p hk
  | delLockDeleted p => exact hdel p rfl hk
  | delLink p n => exact fun hn => hdel p (by simp [Pc.own, hn]) (hk hn)
  | sweepStart due =>
    show Due s' due (s'.ring .deleted)
    rw [hring .deleted rfl]
    exact hdue _ _ rfl (fun q hq => Or.inr hq) hk
  | sweepTest due p =>
    obtain ⟨ys, zs, hr, hp, hd⟩ := hk
    refine ⟨ys, zs, by rw [hring .deleted rfl, hr], by rw [hhead, hp], hdue _ _ rfl ?_ hd⟩
    intro q hq
    exact Or.inr (by rw [hr]; exact List.mem_append_right _ hq)
  | sweepLoad due p =>
    obtain ⟨ys, zs, hr, hd⟩ := hk
    refine ⟨ys, zs, by rw [hring .deleted rfl, hr], hdue _ _ rfl ?_ hd⟩
    intro q hq
    exact Or.inr (by rw [hr]; exact List.mem_append_right _ hq)
  | sweepNext due p =>
    obtain ⟨ys, zs, hr, hd⟩ := hk
    refine ⟨ys, zs, by rw [hring .deleted rfl, hr], hdue _ _ rfl ?_ hd⟩
    intro q hq
    exact Or.inr (by rw [hr]; exact List.mem_append_right _ (List.mem_cons_of_mem _ hq))
  | sweepSave due p =>
    obtain ⟨hn, ys, zs, hr, hd⟩ := hk
    have hsub : ∀ q ∈ p :: zs, (Pc.sweepSave due p).own = some q ∨ q ∈ s.ring .deleted :=
      fun q hq => Or.inr (by rw [hr]; exact List.mem_append_right _ hq)
    refine ⟨hno p ?_ hn, ys, zs, by rw [hring .deleted rfl, hr], hdue _ _ rfl hsub hd⟩
    exact Or.inr ⟨rfl, by rw [hr]; simp⟩
  | sweepUnlink due q pnext n =>
    obtain ⟨hn, ys, zs, hr, hp, hd⟩ := hk
    have hsub : ∀ x ∈ q :: zs,
        (Pc.sweepUnlink due q pnext n).own = some x ∨ x ∈ s.ring .deleted := by
      intro x hx
      rw [hr]
      by_cases h0 : n = 0
      · exact Or.inr (by simp only [h0, if_true]; exact List.mem_append_right _ hx)
      · rcases List.mem_cons.mp hx with rfl | hx
        · exact Or.inl (by simp [Pc.own, h0])
        · exact Or.inr (by simp only [h0, if_false]; exact List.mem_append_right _ hx)
    refine ⟨hno q ?_ hn, ys, zs, by rw [hring .deleted rfl, hr], by rw [hhead, hp],
      hdue _ _ rfl hsub hd⟩
    rcases hsub q (by simp) with h | h
    · exact Or.inl h
    · exact Or.inr ⟨rfl, h⟩
  | sweepFree due q pnext =>
    obtain ⟨hn, ys, zs, hr, hp, hd⟩ := hk
    have hsub : ∀ x ∈ q :: zs, (Pc.sweepFree due q pnext).own = some x ∨ x ∈ s.ring .deleted := by
      intro x hx
      rcases List.mem_cons.mp hx with rfl | hx
      · exact Or.inl rfl
      · exact Or.inr (by rw [hr]; exact List.mem_append_right _ hx)
    exact ⟨hno q (Or.inl rfl) hn, ys, zs, by rw [hring .deleted rfl, hr], by rw [hhead, hp],
      hdue _ _ rfl hsub hd⟩
  | sweepUnlock due => exact hk
  | _ => trivial

section
variable {s : State ι}

/-- An entry that belongs to a thread is on neither ring. -/
theorem Inv.place_of_own (hinv : Inv s) {t : ι} {p : Ptr} (h : (s.pc t).own = some p) (k : Side) :
    p ∉ s.sh.head k :: s.sh.ring k := by
  have hp := hinv.own t p h
  intro hmem
  rcases List.mem_cons.mp hmem with he | hmem
  · rw [(hinv.heads k p).mpr he] at hp
    cases hp
  · rw [(hinv.mem k p).mp hmem] at hp
    cases hp

/-- The nodes of one ring are not nodes of the other. -/
theorem Inv.off_other (hinv : Inv s) {j k : Side} (hjk : j ≠ k) {x : Ptr}
    (hx : x ∈ s.sh.head j :: s.sh.ring j) : x ∉ s.sh.head k :: s.sh.ring k := by
  have hplace : s.sh.place x = .head j ∨ s.sh.place x = .ring j := by
    rcases List.mem_cons.mp hx with he | hmem
    · exact Or.inl ((hinv.heads j x).mpr he)
    · exact Or.inr ((hinv.mem j x).mp hmem)
  intro hx'
  have hplace' : s.sh.place x = .head k ∨ s.sh.place x = .ring k := by
    rcases List.mem_cons.mp hx' with he | hmem
    · exact Or.inl ((hinv.heads k x).mpr he)
    · exact Or.inr ((hinv.mem k x).mp hmem)
  rcases hplace with h1 | h1 <;> rcases hplace' with h2 | h2 <;> rw [h1] at h2 <;> cases h2
  · exact hjk rfl
  · exact hjk rfl

/-- The entry that a link update moves is on the ring or in the hands of the lock's owner. -/
theorem Inv.node_place (hinv : Inv s) {k : Side} {q : Ptr} (hq : (s.work k).node = some q) :
    q ∈ s.sh.ring k ∨ ∃ u, s.sh.lock k = some u ∧ s.sh.place q = .thread u := by
  have hring := hinv.rings k
  cases hl : s.sh.lock k with
  | none =>
    rw [State.work, viewOf_free hl] at hq
    cases hq
  | some u =>
    have hwork : s.work k = (s.pc u).work k := by rw [State.work, viewOf, hl]
    rw [hwork] at hq hring
    have hown : (s.pc u).own = some q → s.sh.place q = .thread u := hinv.own u q
    cases hp : s.pc u with
    -- an insertion counts as done with its third write, a removal with its first
    | addLink p n =>
      rw [hp] at hq hring hown
      cases k with
      | deleted => cases hq
      | active =>
        cases hq
        by_cases hn : n ≤ 2
        · exact Or.inr ⟨u, rfl, hown (by simp [Pc.own, hn])⟩
        · obtain ⟨m, rfl⟩ : ∃ m, n = m + 3 := ⟨n - 3, by omega⟩
          exact Or.inl hring.1
    | delLink p n =>
      rw [hp] at hq hring hown
      cases k with
      | active => cases hq
      | deleted =>
        cases hq
        by_cases hn : n ≤ 2
        · exact Or.inr ⟨u, rfl, hown (by simp [Pc.own, hn])⟩
        · obtain ⟨m, rfl⟩ : ∃ m, n = m + 3 := ⟨n - 3, by omega⟩
          exact Or.inl hring.1
    | delUnlink p n =>
      rw [hp] at hq hring hown
      cases k with
      | deleted => cases hq
      | active =>
        cases hq
        by_cases hn : n = 0
        · subst hn
          exact Or.inl hring.1
        · exact Or.inr ⟨u, rfl, hown (by simp [Pc.own, hn])⟩
    | sweepUnlink due q' pnext n =>
      rw [hp] at hq hring hown
      cases k with
      | active => cases hq
      | deleted =>
        cases hq
        by_cases hn : n = 0
        · subst hn
          exact Or.inl hring.1
        · exact Or.inr ⟨u, rfl, hown (by simp [Pc.own, hn])⟩
    | _ => rw [hp] at hq; cases hq

/-- The entries that other threads' link updates move are allocated. -/
theorem Inv.place_node (hinv : Inv s) {k : Side} {q : Ptr} (hq : (s.work k).node = some q) :
    s.sh.place q ≠ .free := by
  intro hf
  rcases hinv.node_place hq with hmem | ⟨u, -, hplace⟩
  · rw [(hinv.mem k q).mp hmem] at hf
    cases hf
  · rw [hplace] at hf
    cases hf

/-- The other ring is untouched by writes to the links of one ring and of an entry `q` that is
    on it or in the hands of the writing thread. -/
theorem Inv.workOk_other (hinv : Inv s) {t : ι} {j side : Side} {q : Ptr} (hj : j ≠ side)
    (hw : (s.pc t).work j = .none)
    (hq : s.sh.place q = .thread t ∨ s.sh.place q = .ring side) {h' : Heap}
    (hframe : ∀ x, x ≠ q → x ∉ s.sh.head side :: s.sh.ring side →
      h'.next x = s.sh.heap.next x ∧ h'.prev x = s.sh.heap.prev x) :
    WorkOk h' (s.sh.head j) (s.sh.ring j) (s.work j) := by
  have hnode : ∀ x, x ∈ s.sh.head j :: s.sh.ring j →
      h'.next x = s.sh.heap.next x ∧ h'.prev x = s.sh.heap.prev x := by
    intro x hx
    refine hframe x ?_ (hinv.off_other hj hx)
    rintro rfl
    rcases List.mem_cons.mp hx with he | hmem
    · rw [(hinv.heads j x).mpr he] at hq
      rcases hq with hq | hq <;> cases hq
    · rw [(hinv.mem j x).mp hmem] at hq
      rcases hq with hq | hq <;> cases hq
      exact hj rfl
  refine (hinv.rings j).congr hnode ?_
  intro x hx
  rcases hinv.node_place hx with hmem | ⟨u, hl, hplace⟩
  · exact hnode x (List.mem_cons_of_mem _ hmem)
  · -- the entry is in the hands of the thread that has the other ring's lock
    have hut : u ≠ t := by
      rintro rfl
      have hnone : s.work j = .none := by rw [State.work, viewOf, hl]; exact hw
      rw [hnone] at hx
      cases hx
    refine hframe x ?_ ?_
    · rintro rfl
      rw [hplace] at hq
      rcases hq with hq | hq <;> cases hq
      exact hut rfl
    · intro hmem
      rcases List.mem_cons.mp hmem with he | hmem
      · rw [(hinv.heads side x).mpr he] at hplace
        cases hplace
      · rw [(hinv.mem side x).mp hmem] at hplace
        cases hplace

/-- Setting one entry's count, when only the holders of this entry change. -/
theorem Inv.refs_setReferences (hinv : Inv s) {q : Ptr} {holders' : List (ι × Ptr)} {c : UInt32}
    (hc : c.toNat = holders'.countP (·.2 = q))
    (hother : ∀ x, x ≠ q → holders'.countP (·.2 = x) = s.sh.holders.countP (·.2 = x)) (x : Ptr)
    (hx : (s.sh.place x).isEntry = true) :
    ((s.sh.heap.setReferences q c).references x).toNat = holders'.countP (·.2 = x) := by
  by_cases hxq : x = q
  · subst hxq
    simp only [Heap.setReferences, Function.update_self]
    exact hc
  · simp only [Heap.setReferences, Function.update_of_ne hxq]
    rw [hother x hxq]
    exact hinv.refs x hx

end

end Niuchacz.DoublyLinkedList.Concurrent
