import Niuchacz.DoublyLinkedList.RefCount

namespace Niuchacz.DoublyLinkedList.Concurrent

open Lib.Locks

/-!
# Lists with wrong counts

`Inv` speaks of rings and of reference counts.  Threads that release more than they hold break the
second part, and so the test of `doublylinkedlistDel` and that of the sweep; the rings do not
suffer from it.  To say so, a state is looked at as if it had other counts and holders, for which
`Inv` holds:

* `State.recount` — the state with other counts and holders; what a sweep is due to free is
  forgotten, since this depends on the counts.
* `stepGo_recount` — a step that does not look at a count is the same step of the recounted state.
* `Inv.forget` — the holders of an entry on the deleted ring can be forgotten.
* `recount_go` — every step inside a function other than `doublylinkedlistFind` keeps `Inv` for
  some counts, whatever the count is that it reads.
-/

/-! ### Recounting -/

/-- The program point without what a sweep is due to free. -/
def Pc.undue : Pc → Pc
  | .sweepStart _ => .sweepStart []
  | .sweepTest _ p => .sweepTest [] p
  | .sweepLoad _ p => .sweepLoad [] p
  | .sweepNext _ p => .sweepNext [] p
  | .sweepSave _ p => .sweepSave [] p
  | .sweepUnlink _ q pnext k => .sweepUnlink [] q pnext k
  | .sweepFree _ q pnext => .sweepFree [] q pnext
  | .sweepUnlock _ => .sweepUnlock []
  | p => p

/-- What a sweep is due to free has no part in insertions, locks and link updates. -/
theorem adding_undue (pc : Pc) : pc.undue.adding = pc.adding := by
  cases pc <;> rfl

theorem holds_undue (k : Side) (pc : Pc) : pc.undue.holds k = pc.holds k := by
  cases pc <;> rfl

theorem work_undue (k : Side) (pc : Pc) : pc.undue.work k = pc.work k := by
  cases pc <;> rfl

section
variable {ι : Type}

/-- What the threads share, with other counts and holders. -/
def Shared.recount (s : Shared ι) (refs : Ptr → UInt32) (hs : List (ι × Ptr)) : Shared ι :=
  { s with heap := { s.heap with references := refs }, holders := hs }

def State.recount (s : State ι) (refs : Ptr → UInt32) (hs : List (ι × Ptr)) : State ι where
  sh := s.sh.recount refs hs
  pc := fun t => (s.pc t).undue

variable {s : Shared ι} {t : ι} {p : Pc} {o : Shared ι × Pc} {refs : Ptr → UInt32}
  {hs : List (ι × Ptr)}

/-- Stores of links do not look at the counters. -/
theorem link_recount (side : Side) (q : Ptr) (n : ℕ) :
    (s.recount refs hs).link side q n = (s.link side q n).recount refs hs := by
  match n with
  | 0 => rfl
  | 1 => rfl
  | 2 => rfl
  | n + 3 => rfl

theorem unlink_recount (side : Side) (q : Ptr) (n : ℕ) :
    (s.recount refs hs).unlink t side q n = (s.unlink t side q n).recount refs hs := by
  match n with
  | 0 => rfl
  | 1 => rfl
  | 2 => rfl
  | n + 3 => rfl

/-- Other counts do not keep a thread from taking a lock. -/
theorem lockThen_recount (refs : Ptr → UInt32) (hs : List (ι × Ptr)) {k : Side} {p' : Pc}
    (h : lockThen s k t p' = some o) : o.2 = p' ∧
      ∀ p'', lockThen (s.recount refs hs) k t p'' = some (o.1.recount refs hs, p'') := by
  obtain ⟨hl, rfl⟩ := lockThen_eq_some_iff.mp h
  exact ⟨rfl, fun p'' => lockThen_eq_some_iff.mpr ⟨hl, rfl⟩⟩

/-- The step looks at a count. -/
def Pc.counts : Pc → Bool
  | .findTest _ _ | .delTest _ | .sweepLock | .sweepLoad _ _ => true
  | _ => false

/-- A step that does not look at a count is the same step of the recounted state. -/
theorem stepGo_recount (refs : Ptr → UInt32) (hs : List (ι × Ptr)) (hp : p.counts = false)
    (h : stepGo s t p = some o) :
    stepGo (s.recount refs hs) t p.undue = some (o.1.recount refs hs, o.2.undue) := by
  cases p with
  | idle => cases h
  | addLock q | findLock key | delLock q | delLockDeleted q =>
    obtain ⟨ho, hl⟩ := lockThen_recount refs hs h
    rw [ho]
    exact hl _
  | addLink q n | delLink q n =>
    cases h
    simp only [Pc.undue, stepGo, link_recount]
    split <;> rfl
  | delUnlink q n | sweepUnlink due q pnext n =>
    cases h
    simp only [Pc.undue, stepGo, unlink_recount]
    split <;> rfl
  | sweepTest due q =>
    simp only [stepGo] at h
    have hhead : (s.recount refs hs).head .deleted = s.head .deleted := rfl
    simp only [Pc.undue, stepGo, hhead]
    split at h
    · rename_i hq
      cases h
      rw [if_pos hq]
    · rename_i hq
      cases h
      rw [if_neg hq]
      show some (s.recount refs hs, if s.heap.isDeleted q = true then _ else _) = _
      split <;> rfl
  -- these steps look at the counters and are excluded
  | findTest key q | delTest q | sweepLock | sweepLoad due q => cases hp
  | _ => cases h; rfl

end

/-! ### Forgetting holders -/

section
variable {ι : Type} {s : State ι} {t : ι} {q : Ptr}

/-- What a thread relies on does not need holders of an entry on the deleted ring. -/
theorem Inv.knows_forget (hinv : Inv s) (hq : q ∈ s.sh.ring .deleted) (refs : Ptr → UInt32)
    (u : ι) :
    Knows (s.sh.recount refs (s.sh.holders.filter (·.2 ≠ q))) u (s.pc u) := by
  have hplace : s.sh.place q = .ring .deleted := (hinv.mem .deleted q).mp hq
  have hsub : ∀ y ∈ s.sh.holders.filter (·.2 ≠ q), y ∈ s.sh.holders :=
    fun y hy => (List.mem_filter.mp hy).1
  have hno : ∀ x, NoHolder s.sh x →
      NoHolder (s.sh.recount refs (s.sh.holders.filter (·.2 ≠ q))) x :=
    fun x hx y hy => hx y (hsub y hy)
  have hdue : ∀ due zs, Due s.sh due zs →
      Due (s.sh.recount refs (s.sh.holders.filter (·.2 ≠ q))) due zs :=
    fun due zs hd x hx => ⟨(hd x hx).1, hno x (hd x hx).2⟩
  -- an entry that is being deleted is on the active ring or in the hands of its thread
  have hheld : ∀ x, s.sh.place x ≠ .ring .deleted → (u, x) ∈ s.sh.holders →
      (u, x) ∈ s.sh.holders.filter (·.2 ≠ q) := by
    intro x hx hmem
    refine List.mem_filter.mpr ⟨hmem, ?_⟩
    simp only [decide_eq_true_eq]
    rintro rfl
    exact hx hplace
  have hown := hinv.own u
  have htarget := hinv.target u
  have hk := hinv.knows u
  cases hp : s.pc u with
  | addLock x => rw [hp] at hk; exact fun y hy => hk y (hsub y hy)
  | addLink x n => rw [hp] at hk; exact fun hn y hy => hk hn y (hsub y hy)
  | findUnlock r =>
    rw [hp] at hk
    cases r with
    | none => trivial
    | some x => exact hk
  | delLock x =>
    rw [hp] at hk htarget
    refine hheld x ?_ hk
    rw [(htarget x rfl).1]
    simp
  | delUnlink x n =>
    rw [hp] at hk htarget hown
    refine hheld x ?_ hk
    by_cases hn : n = 0
    · rw [(htarget x (if_pos hn)).1]
      simp
    · rw [hown x (if_neg hn)]
      simp
  | delTest x =>
    rw [hp] at hk hown
    refine hheld x ?_ hk
    rw [hown x rfl]
    simp
  | sweepStart due => rw [hp] at hk; exact hdue _ _ hk
  | sweepTest due x =>
    rw [hp] at hk
    obtain ⟨ys, zs, hring, hx, hd⟩ := hk
    exact ⟨ys, zs, hring, hx, hdue _ _ hd⟩
  | sweepLoad due x | sweepNext due x =>
    rw [hp] at hk
    obtain ⟨ys, zs, hring, hd⟩ := hk
    exact ⟨ys, zs, hring, hdue _ _ hd⟩
  | sweepSave due x =>
    rw [hp] at hk
    obtain ⟨hn, ys, zs, hring, hd⟩ := hk
    exact ⟨hno _ hn, ys, zs, hring, hdue _ _ hd⟩
  | sweepUnlink due x pnext n =>
    rw [hp] at hk
    obtain ⟨hn, ys, zs, hring, hx, hd⟩ := hk
    exact ⟨hno _ hn, ys, zs, hring, hx, hdue _ _ hd⟩
  | sweepFree due x pnext =>
    rw [hp] at hk
    obtain ⟨hn, ys, zs, hring, hx, hd⟩ := hk
    exact ⟨hno _ hn, ys, zs, hring, hx, hdue _ _ hd⟩
  | _ => rw [hp] at hk; exact hk

/-- The holders of an entry on the deleted ring can be forgotten. -/
theorem Inv.forget (hinv : Inv s) (hq : q ∈ s.sh.ring .deleted) :
    Inv ⟨s.sh.recount (Function.update s.sh.heap.references q 0) (s.sh.holders.filter (·.2 ≠ q)),
      s.pc⟩ where
  excl := hinv.excl
  heads := hinv.heads
  mem := hinv.mem
  rings := fun k => (hinv.rings k).congr (fun _ _ => ⟨rfl, rfl⟩) fun _ _ => ⟨rfl, rfl⟩
  alloc := hinv.alloc
  own := hinv.own
  target := hinv.target
  targetInj := hinv.targetInj
  flags := hinv.flags
  refs := by
    intro x hx
    show (Function.update s.sh.heap.references q 0 x).toNat = _
    -- the entry itself has no holders left
    by_cases hxq : x = q
    · subst hxq
      rw [Function.update_self]
      symm
      refine List.countP_eq_zero.mpr fun y hy => ?_
      simpa using (List.mem_filter.mp hy).2
    · rw [Function.update_of_ne hxq, hinv.refs x hx]
      show _ = (s.sh.holders.filter (·.2 ≠ q)).countP _
      rw [List.countP_filter]
      refine List.countP_congr fun y _ => ?_
      simp only [decide_eq_true_eq, Bool.and_eq_true]
      constructor
      · rintro rfl
        exact ⟨rfl, hxq⟩
      · exact And.left
  held := fun y hy => hinv.held y (List.mem_filter.mp hy).1
  placed := hinv.placed
  knows := hinv.knows_forget hq _

/-! ### Steps -/

/-- Counters may be changed before a step or after it. -/
theorem recount_apply [DecidableEq ι] (s : State ι) (t : ι) (o : Shared ι × Pc)
    (refs : Ptr → UInt32) (hs : List (ι × Ptr)) :
    (s.apply t o).recount refs hs =
      (s.recount refs hs).apply t (o.1.recount refs hs, o.2.undue) := by
  show State.mk _ _ = State.mk _ _
  congr 1
  funext u
  by_cases hu : u = t
  · subst hu
    simp [State.apply]
  · simp [State.apply, State.recount, Function.update_of_ne hu]

/-- A thread outside of the list's functions is there with other counts, too. -/
theorem recount_idle {hs : List (ι × Ptr)} {refs : Ptr → UInt32}
    (hidle : s.pc t = .idle) : (s.recount refs hs).pc t = .idle := by
  show (s.pc t).undue = .idle
  rw [hidle]
  rfl

/-- **One step.**  Whatever the count is that a step inside a function reads, the invariant holds
    for some counts afterwards. -/
theorem recount_go [DecidableEq ι] {hs : List (ι × Ptr)} {refs : Ptr → UInt32}
    {o : Shared ι × Pc} (hinv : Inv (s.recount refs hs)) (h : stepGo s.sh t (s.pc t) = some o)
    (hfind : ∀ key p, s.pc t ≠ .findTest key p) :
    ∃ refs' hs', Inv ((s.apply t o).recount refs' hs') ∧
      ∀ u x, (u, x) ∈ hs → s.sh.place x ≠ .ring .deleted → (u, x) ∈ hs' := by
  have hpc : (s.recount refs hs).pc t = (s.pc t).undue := rfl
  -- most steps are steps of the recounted state
  have hsame : ∀ {p'}, o = (s.sh, p') → Inv ((s.recount refs hs).apply t
      ((s.recount refs hs).sh, p'.undue)) → ∃ refs' hs', Inv ((s.apply t o).recount refs' hs') ∧
      ∀ u x, (u, x) ∈ hs → s.sh.place x ≠ .ring .deleted → (u, x) ∈ hs' := by
    rintro p' rfl hinv'
    exact ⟨refs, hs, by rw [recount_apply]; exact hinv', fun _ _ hmem _ => hmem⟩
  cases hp : s.pc t with
  | findTest key q => exact absurd hp (hfind key q)
  | delTest q =>
    rw [hp] at h hpc
    have ho := (Option.some.inj h).symm
    by_cases hr : s.sh.heap.references q > 0
    · rw [if_pos hr] at ho
      refine hsame ho (hinv.stay hpc ?_ (fun _ => rfl) (fun _ => Or.inl rfl) trivial)
      exact ⟨fun _ => rfl, fun _ h => h, fun _ h => h, fun _ h => h⟩
    · rw [if_neg hr] at ho
      exact hsame ho (hinv.stay hpc (.plain (fun _ => rfl) rfl rfl rfl) (fun _ => rfl)
        (fun _ => Or.inl rfl) trivial)
  | sweepLock =>
    rw [hp] at h hpc
    obtain ⟨ho, hl⟩ := lockThen_recount refs hs h
    refine ⟨refs, hs, ?_, fun _ _ hmem _ => hmem⟩
    rw [recount_apply, ho]
    refine hinv.lock hpc (hl _) (.plain (fun _ => rfl) rfl rfl rfl) rfl (forall_ne_deleted rfl)
      (fun _ => Or.inl rfl) ?_
    intro x hx
    cases hx
  | sweepLoad due q =>
    rw [hp] at h hpc
    have ho := (Option.some.inj h).symm
    have hk : Knows (s.sh.recount refs hs) t (.sweepLoad [] q) := by
      have hk := hinv.knows t
      rwa [hpc] at hk
    obtain ⟨ys, zs, hring, -⟩ := hk
    by_cases hr : s.sh.heap.references q = 0
    · -- the entry is freed: whoever holds it is forgotten
      rw [if_pos hr] at ho
      have hq : q ∈ (s.recount refs hs).sh.ring .deleted := by
        show q ∈ (s.sh.recount refs hs).ring .deleted
        rw [hring]
        simp
      refine ⟨Function.update refs q 0, hs.filter (·.2 ≠ q), ?_, ?_⟩
      · rw [recount_apply, ho]
        refine (hinv.forget hq).stay hpc (.plain (fun _ => rfl) rfl rfl rfl) (fun _ => rfl)
          (fun _ => Or.inl rfl) ⟨?_, ys, zs, hring, fun x hx => by cases hx⟩
        intro y hy
        simpa using (List.mem_filter.mp hy).2
      · intro u x hmem hx
        refine List.mem_filter.mpr ⟨hmem, ?_⟩
        simp only [decide_eq_true_eq]
        rintro rfl
        exact hx ((hinv.mem .deleted x).mp hq)
    · rw [if_neg hr] at ho
      exact hsame ho (hinv.stay hpc (.plain (fun _ => rfl) rfl rfl rfl) (fun _ => rfl)
        (fun _ => Or.inl rfl) ⟨ys, zs, hring, fun x hx => by cases hx⟩)
  | _ =>
    have hgo := stepGo_recount refs hs (by rw [hp]; rfl) h
    refine ⟨refs, hs, ?_, fun _ _ hmem _ => hmem⟩
    rw [recount_apply]
    refine inv_go hinv ?_ hgo
    intro key x hx
    rw [hpc, hp] at hx
    cases hx

end

end Niuchacz.DoublyLinkedList.Concurrent
