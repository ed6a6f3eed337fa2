import Niuchacz.DoublyLinkedList.Ownership

namespace Niuchacz.DoublyLinkedList.Concurrent

open Lib.LinkedRing Lib.Locks

/-!
# The kinds of steps

One lemma for each kind of step of the shared list: it keeps `Inv`, given what the program
points before and after say.

* `Inv.move` — only the program point and a lock change.
* `Inv.link`, `Inv.unlink` — one link write.
* `Inv.hit`, `Inv.release` — a reference is taken or given back.
* `Inv.mark`, `Inv.free` — an entry in the thread's hands is marked or freed.
* `Inv.add`, `Inv.delete` — a call creates an entry or announces its deletion.
-/

variable {ι : Type} [DecidableEq ι] {s : State ι} {t : ι} {p p' : Pc} {q : Ptr} {n : ℕ}
  {side j : Side}

/-! ### Locks and rings after a step -/

/-- A statement about all threads' program points after `t` has moved. -/
theorem forall_pc {P : ι → Pc → Prop} (ht : P t p') (hu : ∀ u, u ≠ t → P u (s.pc u)) :
    ∀ u, P u (Function.update s.pc t p' u) :=
  (Function.forall_update_iff s.pc P).mpr ⟨ht, hu⟩

/-- A step with a proper effect on each lock keeps them exclusive. -/
theorem Inv.excl_apply (hinv : Inv s) (hp : s.pc t = p) {sh' : Shared ι}
    (heff : ∀ k, Effect Pc.holds s.sh.lock sh'.lock t p p' k) :
    Exclusive Pc.holds sh'.lock (Function.update s.pc t p') := by
  refine hinv.excl.step (t := t) ?_ ?_
  · intro k
    rw [Function.update_self, hp]
    exact heff k
  · intro k u hu
    rw [Function.update_of_ne hu]

/-- A step between two points without a link update leaves the update of a ring as it is. -/
theorem Inv.work_quiet (hinv : Inv s) (hp : s.pc t = p) {sh' : Shared ι}
    (heff : ∀ k, Effect Pc.holds s.sh.lock sh'.lock t p p' k) {k : Side}
    (hw : p.work k = .none) (hw' : p'.work k = .none) :
    (s.apply t (sh', p')).work k = s.work k := by
  refine viewOf_step_quiet (t := t) hinv.excl (hinv.excl_apply hp heff)
    (fun p => work_eq_none_of_not_holds k p) ?_ ?_ ?_ ?_
  · show Effect Pc.holds s.sh.lock sh'.lock t (s.pc t) (Function.update s.pc t p' t) k
    rw [Function.update_self, hp]
    exact heff k
  · intro u hu
    simp only [State.apply, Function.update_of_ne hu]
  · rw [hp, hw]
  · simp only [State.apply, Function.update_self, hw']

/-- The update of a ring that the moving thread has locked is its own. -/
theorem Inv.work_owner (hinv : Inv s) (hp : s.pc t = p) {sh' : Shared ι}
    (heff : ∀ k, Effect Pc.holds s.sh.lock sh'.lock t p p' k) {k : Side}
    (hh : p'.holds k = true) : (s.apply t (sh', p')).work k = p'.work k := by
  have hx := hinv.excl_apply hp heff
  have hh' : Pc.holds k (Function.update s.pc t p' t) = true := by rw [Function.update_self, hh]
  show viewOf sh'.lock (Function.update s.pc t p') k (Pc.work k) .none = p'.work k
  rw [viewOf_owner hx hh', Function.update_self]

/-- The rings are untouched by a step that writes no link of an address in use. -/
theorem Inv.rings_quiet (hinv : Inv s) (hp : s.pc t = p) (sh' : Shared ι) (p' : Pc)
    (hlock : sh'.lock = s.sh.lock) (hholds : ∀ k, p'.holds k = p.holds k)
    (hw : ∀ k, p.work k = .none) (hw' : ∀ k, p'.work k = .none)
    (hplist : sh'.plist = s.sh.plist) (hring : sh'.ring = s.sh.ring)
    (hlinks : ∀ x, s.sh.place x ≠ .free →
      sh'.heap.next x = s.sh.heap.next x ∧ sh'.heap.prev x = s.sh.heap.prev x) (k : Side) :
    WorkOk sh'.heap (sh'.head k) (sh'.ring k) ((s.apply t (sh', p')).work k) := by
  have heff : ∀ k, Effect Pc.holds s.sh.lock sh'.lock t p p' k :=
    fun k => Effect.stay (by rw [hlock]) (hholds k)
  have hhead : sh'.head k = s.sh.head k := by
    cases k <;> simp [Shared.head, hplist]
  rw [hinv.work_quiet hp heff (hw k) (hw' k), hhead, hring]
  refine (hinv.rings k).congr ?_ ?_
  · intro x hx
    apply hlinks
    -- heads and entries on a ring are in use
    intro hf
    rcases List.mem_cons.mp hx with he | hmem
    · rw [(hinv.heads k x).mpr he] at hf
      cases hf
    · rw [(hinv.mem k x).mp hmem] at hf
      cases hf
  · intro x hx
    exact hlinks x (hinv.place_node hx)

/-- Two threads still have different targets if the moving one has no new target. -/
theorem Inv.targetInj_apply (hinv : Inv s) (hp : s.pc t = p)
    (htarget : ∀ x, p'.target = some x → p.target = some x) (u v : ι) (x : Ptr)
    (hu : (Function.update s.pc t p' u).target = some x)
    (hv : (Function.update s.pc t p' v).target = some x) : u = v := by
  have hback : ∀ u x, (Function.update s.pc t p' u).target = some x →
      (s.pc u).target = some x := by
    refine forall_pc (P := fun u p => ∀ x, p.target = some x → (s.pc u).target = some x) ?_ ?_
    · intro x hx
      rw [hp]
      exact htarget x hx
    · exact fun u _ x hx => hx
  exact hinv.targetInj u v x (hback u x hu) (hback v x hv)

/-- An entry that is being added still is, if the moving thread goes on adding its own. -/
theorem adding_apply (hp : s.pc t = p) {x : Ptr} (hadding : p.adding = some x → p'.adding = some x)
    (h : ∃ u, (s.pc u).adding = some x) :
    ∃ u, (Function.update s.pc t p' u).adding = some x := by
  obtain ⟨u, hu⟩ := h
  refine ⟨u, ?_⟩
  by_cases hut : u = t
  · subst hut
    rw [hp] at hu
    rw [Function.update_self]
    exact hadding hu
  · rw [Function.update_of_ne hut]
    exact hu

/-! ### Steps that move a thread on -/

/-- The program points agree on the thread's entry, its target, and the entry it adds. -/
structure Moves (p p' : Pc) : Prop where
  quiet : ∀ k, p.work k = .none
  own : ∀ q, p'.own = some q → p.own = some q
  target : ∀ q, p'.target = some q → p.target = some q
  adding : ∀ q, p.adding = some q → p'.adding = some q

/-- A step that changes only the program point and the locks. -/
theorem Inv.move (hinv : Inv s) (hp : s.pc t = p) {lock' : Side → Option ι} (hm : Moves p p')
    (heff : ∀ k, Effect Pc.holds s.sh.lock lock' t p p' k)
    (hwork : ∀ k, p'.work k = .none ∨
      (p'.holds k = true ∧ WorkOk s.sh.heap (s.sh.head k) (s.sh.ring k) (p'.work k)))
    (hknows : Knows s.sh t p') : Inv (s.apply t ({ s.sh with lock := lock' }, p')) where
  excl := hinv.excl_apply hp heff
  heads := hinv.heads
  mem := hinv.mem
  rings := by
    intro k
    show WorkOk s.sh.heap (s.sh.head k) (s.sh.ring k) _
    -- only the thread with the lock may have begun to write links
    rcases hwork k with hw | ⟨hh, hok⟩
    · rw [hinv.work_quiet hp heff (hm.quiet k) hw]
      exact hinv.rings k
    · rw [hinv.work_owner hp heff hh]
      exact hok
  alloc := hinv.alloc
  own := by
    refine forall_pc (P := fun u p => ∀ x, p.own = some x → s.sh.place x = .thread u) ?_ ?_
    · intro x hx
      exact hinv.own t x (by rw [hp]; exact hm.own x hx)
    · exact fun u _ => hinv.own u
  target := by
    refine forall_pc (P := fun u p => ∀ x, p.target = some x →
      s.sh.place x = .ring .active ∧ x ∈ s.sh.delCalled) ?_ ?_
    · intro x hx
      exact hinv.target t x (by rw [hp]; exact hm.target x hx)
    · exact fun u _ => hinv.target u
  targetInj := hinv.targetInj_apply hp hm.target
  flags := hinv.flags
  refs := hinv.refs
  held := hinv.held
  placed := by
    intro x hx hd
    rcases hinv.placed x hx hd with h | h
    · exact Or.inl h
    · exact Or.inr (adding_apply hp (hm.adding x) h)
  knows := by
    refine forall_pc (P := fun u p => Knows { s.sh with lock := lock' } u p) ?_ ?_
    · exact hknows.congr rfl (fun _ _ => rfl) (fun _ _ h => h) (fun _ h => h)
        (fun _ h => Or.inl h)
    · intro u _
      exact (hinv.knows u).congr rfl (fun _ _ => rfl) (fun _ _ h => h) (fun _ h => h)
        (fun _ h => Or.inl h)

/-! ### Link writes -/

/-- What a link write does: the entry `q` stays with the thread or on the ring `side`, or goes
    from one to the other, and no other address is concerned. -/
structure Rewires (s : State ι) (t : ι) (side : Side) (q : Ptr) (sh' : Shared ι) (p p' : Pc) :
    Prop where
  lock : sh'.lock = s.sh.lock
  plist : sh'.plist = s.sh.plist
  holders : sh'.holders = s.sh.holders
  delCalled : sh'.delCalled = s.sh.delCalled
  entries : SameEntries s.sh.heap sh'.heap
  before : s.sh.place q = .thread t ∨ s.sh.place q = .ring side
  after : sh'.place q = .thread t ∨ sh'.place q = .ring side
  place : ∀ x, x ≠ q → sh'.place x = s.sh.place x
  ring : ∀ k, k ≠ side → sh'.ring k = s.sh.ring k
  mem : ∀ x, x ∈ sh'.ring side ↔ sh'.place x = .ring side
  work : WorkOk sh'.heap (s.sh.head side) (sh'.ring side) (p'.work side)
  frame : ∀ x, x ≠ q → x ∉ s.sh.head side :: s.sh.ring side →
    sh'.heap.next x = s.sh.heap.next x ∧ sh'.heap.prev x = s.sh.heap.prev x
  holds : p.holds side = true
  holds' : ∀ k, p'.holds k = p.holds k
  quiet : ∀ k, k ≠ side → p.work k = .none ∧ p'.work k = .none
  own' : ∀ x, p'.own = some x → sh'.place x = .thread t
  target' : p'.target = none
  target : ∀ u, u ≠ t → (s.pc u).target = some q → sh'.place q = .ring .active
  flags : sh'.place q = .ring .deleted → s.sh.heap.isDeleted q = true
  adding : ∀ x, p.adding = some x → p'.adding = some x ∨ sh'.place x = .ring .active
  deleted : s.sh.place q = .ring .active → sh'.place q = .ring .active ∨ q ∈ s.sh.delCalled

/-- **Link writes.**  A step of such a kind keeps the invariant. -/
theorem Inv.rewire (hinv : Inv s) (hp : s.pc t = p) {sh' : Shared ι}
    (hr : Rewires s t side q sh' p p') (hknows : Knows sh' t p') : Inv (s.apply t (sh', p')) := by
  obtain ⟨-, hrefs, hisDel, -, -, halloc⟩ := hr.entries
  have heff : ∀ k, Effect Pc.holds s.sh.lock sh'.lock t p p' k :=
    fun k => Effect.stay (by rw [hr.lock]) (hr.holds' k)
  have hhead : ∀ k, sh'.head k = s.sh.head k := by
    intro k
    cases k <;> simp [Shared.head, hr.plist]
  have hentry : ∀ x, (sh'.place x).isEntry = (s.sh.place x).isEntry := by
    intro x
    by_cases hx : x = q
    · subst hx
      rcases hr.before with h1 | h1 <;> rcases hr.after with h2 | h2 <;> rw [h1, h2] <;> rfl
    · rw [hr.place x hx]
  constructor
  case excl => exact hinv.excl_apply hp heff
  case heads =>
    intro k x
    show sh'.place x = .head k ↔ x = sh'.head k
    rw [hhead, ← hinv.heads k x]
    by_cases hx : x = q
    · subst hx
      rcases hr.before with h1 | h1 <;> rcases hr.after with h2 | h2 <;> simp [h1, h2]
    · rw [hr.place x hx]
  case mem =>
    intro k x
    show x ∈ sh'.ring k ↔ sh'.place x = .ring k
    by_cases hk : k = side
    · rw [hk]
      exact hr.mem x
    · rw [hr.ring k hk, hinv.mem k x]
      by_cases hx : x = q
      · subst hx
        rcases hr.before with h1 | h1 <;> rcases hr.after with h2 | h2 <;>
          simp [h1, h2, Ne.symm hk]
      · rw [hr.place x hx]
  case rings =>
    intro k
    show WorkOk sh'.heap (sh'.head k) (sh'.ring k) _
    rw [hhead]
    by_cases hk : k = side
    · subst hk
      rw [hinv.work_owner hp heff (by rw [hr.holds', hr.holds])]
      exact hr.work
    · obtain ⟨hw, hw'⟩ := hr.quiet k hk
      rw [hinv.work_quiet hp heff hw hw', hr.ring k hk]
      exact hinv.workOk_other hk (by rw [hp, hw]) hr.before hr.frame
  case alloc =>
    intro x
    show sh'.heap.allocated x = (sh'.place x).isEntry
    rw [halloc, hentry, hinv.alloc x]
  case own =>
    refine forall_pc (P := fun u p => ∀ x, p.own = some x → sh'.place x = .thread u) hr.own' ?_
    intro u hu x hx
    have hux := hinv.own u x hx
    have hxq : x ≠ q := by
      rintro rfl
      rcases hr.before with h | h <;> rw [hux] at h <;> cases h
      exact hu rfl
    rw [hr.place x hxq, hux]
  case target =>
    refine forall_pc (P := fun u p => ∀ x, p.target = some x →
      sh'.place x = .ring .active ∧ x ∈ sh'.delCalled) ?_ ?_
    · intro x hx
      rw [hr.target'] at hx
      cases hx
    · intro u hu x hx
      obtain ⟨hring, hd⟩ := hinv.target u x hx
      refine ⟨?_, by rw [hr.delCalled]; exact hd⟩
      by_cases hxq : x = q
      · subst hxq
        exact hr.target u hu hx
      · rw [hr.place x hxq, hring]
  case targetInj =>
    refine hinv.targetInj_apply hp ?_
    intro x hx
    rw [hr.target'] at hx
    cases hx
  case flags =>
    intro x hx
    show sh'.heap.isDeleted x = true
    rw [hisDel]
    by_cases hxq : x = q
    · subst hxq
      exact hr.flags hx
    · exact hinv.flags x (by rw [← hr.place x hxq]; exact hx)
  case refs =>
    intro x hx
    show (sh'.heap.references x).toNat = sh'.holders.countP (·.2 = x)
    rw [hrefs, hr.holders]
    exact hinv.refs x (by rw [← hentry x]; exact hx)
  case held =>
    intro y hy
    have hy' : y ∈ s.sh.holders := by rw [← hr.holders]; exact hy
    exact (hentry y.2).trans (hinv.held y hy')
  case placed =>
    intro x hx hd
    have hd' : x ∉ s.sh.delCalled := by rw [← hr.delCalled]; exact hd
    show sh'.place x = _ ∨ ∃ u, (Function.update s.pc t p' u).adding = some x
    rcases hinv.placed x (by rw [← hentry x]; exact hx) hd' with hring | ⟨u, hu⟩
    · by_cases hxq : x = q
      · subst hxq
        rcases hr.deleted hring with h | h
        · exact Or.inl h
        · exact absurd h hd'
      · exact Or.inl (by rw [hr.place x hxq, hring])
    · by_cases hut : u = t
      · subst hut
        rw [hp] at hu
        rcases hr.adding x hu with ha | ha
        · exact Or.inr ⟨u, by rw [Function.update_self]; exact ha⟩
        · exact Or.inl ha
      · exact Or.inr ⟨u, by rw [Function.update_of_ne hut]; exact hu⟩
  case knows =>
    refine forall_pc (P := fun u p => Knows sh' u p) hknows ?_
    intro u hu
    refine (hinv.knows u).congr hr.plist ?_ (fun x _ hx => by rw [hisDel, hx])
      (fun x hx => by rw [hr.holders]; exact hx)
      (fun y hy => Or.inl (by rw [← hr.holders]; exact hy))
    -- the lock of the ring is with the writing thread
    intro k hk
    refine hr.ring k ?_
    rintro rfl
    exact hu (hinv.excl.unique hk (by rw [hp]; exact hr.holds))

omit [DecidableEq ι] in
/-- Only the third write of an insertion moves its entry, and no write moves another. -/
theorem Shared.place_link (sh : Shared ι) (side : Side) {x : Ptr} (hx : n = 2 → x ≠ q) :
    (sh.link side q n).place x = sh.place x := by
  by_cases hn : n = 2
  · simp [Shared.link, hn, Function.update_of_ne (hx hn)]
  · simp [Shared.link, hn]

omit [DecidableEq ι] in
/-- Only the first write of a removal moves its entry, and no write moves another. -/
theorem Shared.place_unlink (sh : Shared ι) (t : ι) (side : Side) {x : Ptr} (hx : n = 0 → x ≠ q) :
    (sh.unlink t side q n).place x = sh.place x := by
  by_cases hn : n = 0
  · simp [Shared.unlink, hn, Function.update_of_ne (hx hn)]
  · simp [Shared.unlink, hn]

/-- What the program points around the `n`-th write of an insertion say. -/
structure Links (side : Side) (q : Ptr) (n : ℕ) (p p' : Pc) : Prop where
  holds : p.holds side = true
  holds' : ∀ k, p'.holds k = p.holds k
  work : ∀ k, p.work k = if k = side then .link q n else .none
  work' : ∀ k, p'.work k = if k = side then (if n < 3 then .link q (n + 1) else .none) else .none
  own : p.own = if n ≤ 2 then some q else none
  own' : p'.own = if n < 2 then some q else none
  target' : p'.target = none
  adding : ∀ x, p.adding = some x → p'.adding = some x ∨ (side = .active ∧ n = 2)

/-- A write of an insertion. -/
theorem Inv.link (hinv : Inv s) (hp : s.pc t = p) (hl : Links side q n p p')
    (hdel : side = .deleted → n ≤ 2 → s.sh.heap.isDeleted q = true)
    (hknows : Knows (s.sh.link side q n) t p') :
    Inv (s.apply t (s.sh.link side q n, p')) := by
  have hown : n ≤ 2 → s.sh.place q = .thread t := by
    intro hn
    exact hinv.own t q (by rw [hp, hl.own, if_pos hn])
  have hwork : WorkOk s.sh.heap (s.sh.head side) (s.sh.ring side) (.link q n) := by
    have h := hinv.rings side
    rw [State.work, viewOf_owner hinv.excl (t := t) (by rw [hp]; exact hl.holds), hp, hl.work,
      if_pos rfl] at h
    exact h
  have hring : 2 < n → s.sh.place q = .ring side := by
    intro hn
    obtain ⟨m, rfl⟩ : ∃ m, n = m + 3 := ⟨n - 3, by omega⟩
    exact (hinv.mem side q).mp hwork.1
  have hoff : n ≤ 2 → q ∉ s.sh.head side :: s.sh.ring side := by
    intro hn
    exact hinv.place_of_own (by rw [hp, hl.own, if_pos hn]) side
  have hplace : (s.sh.link side q n).place q = if n < 2 then .thread t else .ring side := by
    by_cases hn : n = 2
    · simp [Shared.link, hn]
    · by_cases hlt : n < 2
      · simp [Shared.link, hn, hlt, hown (by omega)]
      · simp [Shared.link, hn, hlt, hring (by omega)]
  have hlist : (s.sh.link side q n).ring side =
      if n = 2 then q :: s.sh.ring side else s.sh.ring side := by
    by_cases hn : n = 2 <;> simp [Shared.link, hn]
  suffices hr : Rewires s t side q (s.sh.link side q n) p p' from hinv.rewire hp hr hknows
  constructor
  case lock => rfl
  case plist => rfl
  case holders => rfl
  case delCalled => rfl
  case entries => exact sameEntries_linkWrite _ _ _ _
  case before =>
    by_cases hn : n ≤ 2
    · exact Or.inl (hown hn)
    · exact Or.inr (hring (by omega))
  case after => rw [hplace]; split <;> simp
  case place => exact fun x hx => s.sh.place_link side fun _ => hx
  case ring =>
    intro k hk
    by_cases hn : n = 2 <;> simp [Shared.link, hn, Function.update_of_ne hk]
  case mem =>
    intro x
    rw [hlist]
    by_cases hx : x = q
    · subst hx
      rw [hplace]
      by_cases hn : n = 2
      · simp [hn]
      · rw [if_neg hn, hinv.mem side x]
        by_cases hlt : n < 2
        · simp [hlt, hown (by omega)]
        · simp [hlt, hring (by omega)]
    · rw [s.sh.place_link side fun _ => hx, ← hinv.mem side x]
      by_cases hn : n = 2 <;> simp [hn, hx]
  case work =>
    rw [hl.work', if_pos rfl, hlist]
    exact hwork.link_step hoff
  case frame => exact fun x hxq hx => linkWrite_frame hwork hxq hx
  case holds => exact hl.holds
  case holds' => exact hl.holds'
  case quiet => exact fun k hk => ⟨by rw [hl.work, if_neg hk], by rw [hl.work', if_neg hk]⟩
  case own' =>
    intro x hx
    rw [hl.own'] at hx
    by_cases hn : n < 2
    · rw [if_pos hn, Option.some.injEq] at hx
      rw [← hx, hplace, if_pos hn]
    · rw [if_neg hn] at hx
      cases hx
  case target' => exact hl.target'
  case target =>
    -- a target is on the active ring, and an entry that moves is not yet on a ring
    intro u _ hu
    have hu := (hinv.target u q hu).1
    have hn : 2 < n := by
      by_contra hn
      rw [hown (by omega)] at hu
      cases hu
    rw [hplace, if_neg (by omega), ← hring hn, hu]
  case flags =>
    intro hq
    by_cases hn : n ≤ 2
    · rw [hplace] at hq
      split at hq <;> cases hq
      exact hdel rfl hn
    · rw [hplace, if_neg (by omega), ← hring (by omega)] at hq
      exact hinv.flags q hq
  case adding =>
    intro x hx
    rcases hl.adding x hx with ha | ⟨hside, hn⟩
    · exact Or.inl ha
    · have hxq : q = x := by
        have h := own_of_adding hx
        rw [hl.own, if_pos (by omega)] at h
        exact Option.some.inj h
      right
      rw [← hxq, hplace, if_neg (by omega), hside]
  case deleted =>
    intro hq
    have hn : 2 < n := by
      by_contra hn
      rw [hown (by omega)] at hq
      cases hq
    exact Or.inl (by rw [hplace, if_neg (by omega), ← hring hn, hq])

/-- What the program points around the `n`-th write of a removal say. -/
structure Unlinks (side : Side) (q : Ptr) (n : ℕ) (p p' : Pc) : Prop where
  holds : p.holds side = true
  holds' : ∀ k, p'.holds k = p.holds k
  work : ∀ k, p.work k = if k = side then .unlink q n else .none
  work' : ∀ k, p'.work k =
    if k = side then (if n < 3 then .unlink q (n + 1) else .none) else .none
  own : n ≠ 0 → p.own = some q
  own' : p'.own = some q
  target : side = .active → n = 0 → p.target = some q
  target' : p'.target = none
  adding : p.adding = none

/-- A write of a removal. -/
theorem Inv.unlink (hinv : Inv s) (hp : s.pc t = p) (hl : Unlinks side q n p p')
    (hknows : Knows (s.sh.unlink t side q n) t p') :
    Inv (s.apply t (s.sh.unlink t side q n, p')) := by
  have hown : n ≠ 0 → s.sh.place q = .thread t := by
    intro hn
    exact hinv.own t q (by rw [hp, hl.own hn])
  have hwork : WorkOk s.sh.heap (s.sh.head side) (s.sh.ring side) (.unlink q n) := by
    have h := hinv.rings side
    rw [State.work, viewOf_owner hinv.excl (t := t) (by rw [hp]; exact hl.holds), hp, hl.work,
      if_pos rfl] at h
    exact h
  have hring : n = 0 → s.sh.place q = .ring side ∧ (s.sh.ring side).Nodup := by
    rintro rfl
    exact ⟨(hinv.mem side q).mp hwork.1, (List.nodup_cons.mp hwork.2.nodup).2⟩
  have hoff : 1 ≤ n → q ∉ s.sh.head side :: s.sh.ring side := by
    intro hn
    exact hinv.place_of_own (by rw [hp, hl.own (by omega)]) side
  have hplace : (s.sh.unlink t side q n).place q = .thread t := by
    by_cases hn : n = 0
    · simp [Shared.unlink, hn]
    · simp [Shared.unlink, hn, hown hn]
  have hlist : (s.sh.unlink t side q n).ring side =
      if n = 0 then (s.sh.ring side).erase q else s.sh.ring side := by
    by_cases hn : n = 0 <;> simp [Shared.unlink, hn]
  suffices hr : Rewires s t side q (s.sh.unlink t side q n) p p' from hinv.rewire hp hr hknows
  constructor
  case lock => rfl
  case plist => rfl
  case holders => rfl
  case delCalled => rfl
  case entries => exact sameEntries_unlinkWrite _ _ _
  case before =>
    by_cases hn : n = 0
    · exact Or.inr (hring hn).1
    · exact Or.inl (hown hn)
  case after => exact Or.inl hplace
  case place => exact fun x hx => s.sh.place_unlink t side fun _ => hx
  case ring =>
    intro k hk
    by_cases hn : n = 0 <;> simp [Shared.unlink, hn, Function.update_of_ne hk]
  case mem =>
    intro x
    rw [hlist]
    by_cases hx : x = q
    · subst hx
      rw [hplace]
      by_cases hn : n = 0
      · simp [hn, (hring hn).2.mem_erase_iff]
      · rw [if_neg hn, hinv.mem side x, hown hn]
    · rw [s.sh.place_unlink t side fun _ => hx, ← hinv.mem side x]
      by_cases hn : n = 0
      · simp [hn, List.mem_erase_of_ne hx]
      · simp [hn]
  case work =>
    rw [hl.work', if_pos rfl, hlist]
    exact hwork.unlink_step hoff
  case frame => exact fun x hxq hx => unlinkWrite_frame hwork hxq hx
  case holds => exact hl.holds
  case holds' => exact hl.holds'
  case quiet => exact fun k hk => ⟨by rw [hl.work, if_neg hk], by rw [hl.work', if_neg hk]⟩
  case own' =>
    intro x hx
    rw [hl.own', Option.some.injEq] at hx
    rw [← hx, hplace]
  case target' => exact hl.target'
  case target =>
    -- no other thread has announced the deletion of the same entry
    intro u hut hu
    have hq := (hinv.target u q hu).1
    have hn : n = 0 := by
      by_contra hn
      rw [hown hn] at hq
      cases hq
    rw [(hring hn).1] at hq
    cases hq
    exact absurd (hinv.targetInj u t q hu (by rw [hp, hl.target rfl hn])) hut
  case flags =>
    intro hq
    rw [hplace] at hq
    cases hq
  case adding =>
    intro x hx
    rw [hl.adding] at hx
    cases hx
  case deleted =>
    intro hq
    have hn : n = 0 := by
      by_contra hn
      rw [hown hn] at hq
      cases hq
    rw [(hring hn).1] at hq
    cases hq
    exact Or.inr (hinv.target t q (by rw [hp, hl.target rfl hn])).2

/-! ### References and marks -/

/-- A step that changes only reference counts, marks, and who holds references. -/
theorem Inv.adjust (hinv : Inv s) (hp : s.pc t = p) (hm : Moves p p')
    (hholds : ∀ k, p'.holds k = p.holds k) (hw' : ∀ k, p'.work k = .none)
    {h' : Heap} {holders' : List (ι × Ptr)}
    (hnext : h'.next = s.sh.heap.next) (hprev : h'.prev = s.sh.heap.prev)
    (halloc : h'.allocated = s.sh.heap.allocated)
    (hdel : ∀ x, s.sh.heap.isDeleted x = true → h'.isDeleted x = true)
    (hrefs : ∀ x, (s.sh.place x).isEntry = true →
      (h'.references x).toNat = holders'.countP (·.2 = x))
    (hkeep : ∀ u x, u ≠ t → (u, x) ∈ s.sh.holders → (u, x) ∈ holders')
    (hnew : ∀ y ∈ holders', y ∈ s.sh.holders ∨ s.sh.place y.2 = .ring .active)
    (hknows : Knows { s.sh with heap := h', holders := holders' } t p') :
    Inv (s.apply t ({ s.sh with heap := h', holders := holders' }, p')) := by
  constructor
  case excl => exact hinv.excl_apply hp (fun k => Effect.stay rfl (hholds k))
  case heads => exact hinv.heads
  case mem => exact hinv.mem
  case rings =>
    exact fun k => hinv.rings_quiet hp { s.sh with heap := h', holders := holders' } p' rfl
      hholds hm.quiet hw' rfl rfl (fun x _ => ⟨congrFun hnext x, congrFun hprev x⟩) k
  case alloc =>
    intro x
    show h'.allocated x = (s.sh.place x).isEntry
    rw [halloc, hinv.alloc x]
  case own =>
    refine forall_pc (P := fun u p => ∀ x, p.own = some x → s.sh.place x = .thread u) ?_ ?_
    · intro x hx
      exact hinv.own t x (by rw [hp]; exact hm.own x hx)
    · exact fun u _ => hinv.own u
  case target =>
    refine forall_pc (P := fun u p => ∀ x, p.target = some x →
      s.sh.place x = .ring .active ∧ x ∈ s.sh.delCalled) ?_ ?_
    · intro x hx
      exact hinv.target t x (by rw [hp]; exact hm.target x hx)
    · exact fun u _ => hinv.target u
  case targetInj => exact hinv.targetInj_apply hp hm.target
  case flags => exact fun x hx => hdel x (hinv.flags x hx)
  case refs => exact hrefs
  case held =>
    intro y hy
    rcases hnew y hy with hy | hplace
    · exact hinv.held y hy
    · show (s.sh.place y.2).isEntry = true
      rw [hplace]
      rfl
  case placed =>
    intro x hx hd
    rcases hinv.placed x hx hd with h | h
    · exact Or.inl h
    · exact Or.inr (adding_apply hp (hm.adding x) h)
  case knows =>
    refine forall_pc (P := fun u p => Knows _ u p) hknows ?_
    intro u hu
    refine (hinv.knows u).congr rfl (fun _ _ => rfl) (fun x _ => hdel x)
      (fun x => hkeep u x hu) ?_
    intro y hy
    rcases hnew y hy with hy | hplace
    · exact Or.inl hy
    · -- an entry on the active ring is in nobody's hands and not on the deleted ring
      refine Or.inr ⟨?_, ?_⟩
      · intro hown
        rw [hinv.own u _ hown] at hplace
        cases hplace
      · intro _ hmem
        rw [(hinv.mem .deleted _).mp hmem] at hplace
        cases hplace

/-- `doublylinkedlistFind` takes a reference to the entry it has found. -/
theorem Inv.hit (hinv : Inv s) {key : UInt64} (hp : s.pc t = .findTest key q)
    (hne : q ≠ s.sh.plist) (hmax : (s.sh.heap.references q).toNat + 1 < 2 ^ 32) :
    Inv (s.apply t ({ s.sh with
      heap := s.sh.heap.setReferences q (s.sh.heap.references q + 1)
      holders := (t, q) :: s.sh.holders }, .findUnlock (some q))) := by
  have hmem : q ∈ s.sh.ring .active := by
    have h : Knows s.sh t (.findTest key q) := by rw [← hp]; exact hinv.knows t
    exact (List.mem_cons.mp h).resolve_left hne
  have hplace := (hinv.mem .active q).mp hmem
  have hm : Moves (.findTest key q) (.findUnlock (some q)) :=
    ⟨fun _ => rfl, fun _ h => h, fun _ h => h, fun _ h => h⟩
  -- one more reference, and one more holder
  have hc : (s.sh.heap.references q + 1).toNat =
      ((t, q) :: s.sh.holders).countP (·.2 = q) := by
    rw [UInt32.toNat_add, List.countP_cons_of_pos (by simp),
      ← hinv.refs q (by rw [hplace]; rfl)]
    exact Nat.mod_eq_of_lt hmax
  have hother : ∀ x, x ≠ q →
      ((t, q) :: s.sh.holders).countP (·.2 = x) = s.sh.holders.countP (·.2 = x) :=
    fun x hx => List.countP_cons_of_neg (by simpa using Ne.symm hx)
  refine hinv.adjust hp hm (fun _ => rfl) (fun _ => rfl) rfl rfl rfl (fun _ h => h)
    (hinv.refs_setReferences hc hother) (fun u x _ hx => List.mem_cons_of_mem _ hx) ?_ hmem
  intro y hy
  rcases List.mem_cons.mp hy with rfl | hy
  · exact Or.inr hplace
  · exact Or.inl hy

/-- `doublylinkedlistRelease` of a reference the thread holds. -/
theorem Inv.release (hinv : Inv s) (hp : s.pc t = .idle) (hheld : (t, q) ∈ s.sh.holders) :
    Inv (s.apply t ({ s.sh with
      heap := s.sh.heap.setReferences q (s.sh.heap.references q - 1)
      holders := s.sh.holders.erase (t, q) }, .idle)) := by
  have hperm := List.perm_cons_erase hheld
  have hm : Moves .idle .idle := ⟨fun _ => rfl, fun _ h => h, fun _ h => h, fun _ h => h⟩
  -- the count is that of the remaining holders and one more
  have hcount : (s.sh.heap.references q).toNat =
      (s.sh.holders.erase (t, q)).countP (·.2 = q) + 1 := by
    rw [hinv.refs q (hinv.held _ hheld), hperm.countP_eq, List.countP_cons_of_pos (by simp)]
  have hone : (1 : UInt32) ≤ s.sh.heap.references q := by
    rw [UInt32.le_iff_toNat_le, hcount]
    simp
  have hc : (s.sh.heap.references q - 1).toNat =
      (s.sh.holders.erase (t, q)).countP (·.2 = q) := by
    rw [UInt32.toNat_sub_of_le _ _ hone, hcount]
    simp
  have hother : ∀ x, x ≠ q →
      (s.sh.holders.erase (t, q)).countP (·.2 = x) = s.sh.holders.countP (·.2 = x) := by
    intro x hx
    rw [hperm.countP_eq, List.countP_cons_of_neg (by simpa using Ne.symm hx)]
  refine hinv.adjust hp hm (fun _ => rfl) (fun _ => rfl) rfl rfl rfl (fun _ h => h)
    (hinv.refs_setReferences hc hother) ?_ (fun y hy => Or.inl (List.mem_of_mem_erase hy)) trivial
  intro u x hu hx
  refine (List.mem_erase_of_ne ?_).mpr hx
  intro he
  exact hu (congrArg Prod.fst he)

/-- `doublylinkedlistDel` marks the entry it has taken off the active ring. -/
theorem Inv.mark (hinv : Inv s) (hp : s.pc t = .delMark q) :
    Inv (s.apply t ({ s.sh with heap := s.sh.heap.setDeleted q true }, .delLockDeleted q)) := by
  have hm : Moves (.delMark q) (.delLockDeleted q) :=
    ⟨fun _ => rfl, fun _ h => h, fun _ h => h, fun _ h => h⟩
  refine hinv.adjust hp hm (fun _ => rfl) (fun _ => rfl) rfl rfl rfl ?_ hinv.refs
    (fun _ _ _ h => h) (fun _ h => Or.inl h) ?_
  · intro x hx
    by_cases hxq : x = q
    · simp [Heap.setDeleted, hxq]
    · simp [Heap.setDeleted, Function.update_of_ne hxq, hx]
  · show (s.sh.heap.setDeleted q true).isDeleted q = true
    simp [Heap.setDeleted]

/-! ### Creation, deletion and the end of an entry -/

omit [DecidableEq ι] in
/-- An entry that goes from the place `a` to the place `b` leaves all other places as they are. -/
theorem update_place_iff {place : Ptr → Place ι} {a b pl : Place ι} {x : Ptr} (hq : place q = a)
    (ha : pl ≠ a) (hb : pl ≠ b) : Function.update place q b x = pl ↔ place x = pl := by
  by_cases hx : x = q
  · rw [hx, Function.update_self, hq]
    exact ⟨fun h => absurd h.symm hb, fun h => absurd h.symm ha⟩
  · rw [Function.update_of_ne hx]

/-- The sweep frees an entry that it has taken off the deleted ring and nobody holds. -/
theorem Inv.free (hinv : Inv s) {due : List Ptr} {pnext : Ptr}
    (hp : s.pc t = .sweepFree due q pnext) :
    Inv (s.apply t ({ s.sh with
      heap := s.sh.heap.free q
      place := Function.update s.sh.place q .free },
      .sweepTest (due.filter (· ≠ q)) pnext)) := by
  have hown : s.sh.place q = .thread t := hinv.own t q (by rw [hp]; rfl)
  have hk : Knows s.sh t (.sweepFree due q pnext) := by rw [← hp]; exact hinv.knows t
  obtain ⟨hno, ys, zs, hring, hnext, hdue⟩ := hk
  have hentry : ∀ x, (Function.update s.sh.place q .free x).isEntry = true →
      x ≠ q ∧ (s.sh.place x).isEntry = true := by
    intro x hx
    by_cases hxq : x = q
    · rw [hxq, Function.update_self] at hx
      cases hx
    · exact ⟨hxq, by rw [Function.update_of_ne hxq] at hx; exact hx⟩
  constructor
  case excl => exact hinv.excl_apply hp (fun k => Effect.stay rfl rfl)
  case heads =>
    exact fun k x => (update_place_iff hown (by simp) (by simp)).trans (hinv.heads k x)
  case mem =>
    exact fun k x => (hinv.mem k x).trans (update_place_iff hown (by simp) (by simp)).symm
  case rings =>
    exact fun k => hinv.rings_quiet hp
      { s.sh with heap := s.sh.heap.free q, place := Function.update s.sh.place q .free }
      (.sweepTest (due.filter (· ≠ q)) pnext) rfl (fun _ => rfl) (fun _ => rfl) (fun _ => rfl) rfl
      rfl (fun x _ => ⟨rfl, rfl⟩) k
  case alloc =>
    intro x
    show (s.sh.heap.free q).allocated x = (Function.update s.sh.place q .free x).isEntry
    by_cases hxq : x = q
    · simp [Heap.free, hxq, Place.isEntry]
    · simp [Heap.free, Function.update_of_ne hxq, hinv.alloc x]
  case own =>
    refine forall_pc (P := fun u p => ∀ x, p.own = some x →
      Function.update s.sh.place q .free x = .thread u) ?_ ?_
    · intro x hx
      cases hx
    · intro u hu x hx
      exact (update_place_iff hown (by simpa using hu) (by simp)).mpr (hinv.own u x hx)
  case target =>
    refine forall_pc (P := fun u p => ∀ x, p.target = some x →
      Function.update s.sh.place q .free x = .ring .active ∧ x ∈ s.sh.delCalled) ?_ ?_
    · intro x hx
      cases hx
    · intro u _ x hx
      obtain ⟨hplace, hd⟩ := hinv.target u x hx
      exact ⟨(update_place_iff hown (by simp) (by simp)).mpr hplace, hd⟩
  case targetInj =>
    refine hinv.targetInj_apply hp ?_
    intro x hx
    cases hx
  case flags =>
    exact fun x hx => hinv.flags x ((update_place_iff hown (by simp) (by simp)).mp hx)
  case refs => exact fun x hx => hinv.refs x (hentry x hx).2
  case held =>
    intro y hy
    show (Function.update s.sh.place q .free y.2).isEntry = true
    rw [Function.update_of_ne (hno y hy)]
    exact hinv.held y hy
  case placed =>
    intro x hx hd
    rcases hinv.placed x (hentry x hx).2 hd with h | h
    · exact Or.inl ((update_place_iff hown (by simp) (by simp)).mpr h)
    · refine Or.inr (adding_apply hp ?_ h)
      intro he
      cases he
  case knows =>
    refine forall_pc (P := fun u p => Knows _ u p) ?_ ?_
    · -- the freed entry was the only one due that is not behind it
      refine ⟨ys, zs, hring, hnext, ?_⟩
      intro x hx
      obtain ⟨hmem, hne⟩ := List.mem_filter.mp hx
      obtain ⟨hz, hnx⟩ := hdue x hmem
      exact ⟨(List.mem_cons.mp hz).resolve_left (by simpa using hne), hnx⟩
    · intro u _
      exact (hinv.knows u).congr rfl (fun _ _ => rfl) (fun _ _ h => h) (fun _ h => h)
        (fun _ h => Or.inl h)

omit [DecidableEq ι] in
/-- An address that `malloc` may return has no place. -/
theorem Inv.place_eq_free (hinv : Inv s) (halloc : s.sh.heap.allocated q = false)
    (hactive : q ≠ s.sh.plist) (hdeleted : q ≠ deletedEntries s.sh.plist) :
    s.sh.place q = .free := by
  have ha := hinv.alloc q
  rw [halloc] at ha
  cases hpl : s.sh.place q with
  | free => rfl
  | head k =>
    have he := (hinv.heads k q).mp hpl
    cases k with
    | active => exact absurd he hactive
    | deleted => exact absurd he hdeleted
  | ring k => rw [hpl] at ha; cases ha
  | thread u => rw [hpl] at ha; cases ha

omit [DecidableEq ι] in
/-- Nobody holds such an address. -/
theorem Inv.noHolder_of_free (hinv : Inv s) (hfree : s.sh.place q = .free) :
    ∀ y ∈ s.sh.holders, y.2 ≠ q := by
  intro y hy he
  have h := hinv.held y hy
  rw [he, hfree] at h
  cases h

omit [DecidableEq ι] in
/-- An address with a place is not the new one. -/
theorem ne_of_place {x : Ptr} (hfree : s.sh.place q = .free) (hx : s.sh.place x ≠ .free) :
    x ≠ q := by
  rintro rfl
  exact hx hfree

omit [DecidableEq ι] in
/-- What the threads know is true with the new entry as well. -/
theorem Inv.knows_add (hinv : Inv s) {key : UInt64} {data : List UInt8} {sh' : Shared ι}
    (hfree : s.sh.place q = .free) (hplist : sh'.plist = s.sh.plist)
    (hring : sh'.ring = s.sh.ring) (hheap : sh'.heap = s.sh.heap.newEntry q key data)
    (hholders : sh'.holders = (t, q) :: s.sh.holders) (u : ι) : Knows sh' u (s.pc u) := by
  have howned : ∀ x, (s.pc u).own = some x → x ≠ q := fun x hx =>
    ne_of_place hfree (by rw [hinv.own u x hx]; simp)
  refine (hinv.knows u).congr hplist (fun k _ => by rw [hring]) ?_ ?_ ?_
  · intro x hx h
    rw [hheap]
    simp only [Heap.newEntry, Function.update_of_ne (howned x hx)]
    exact h
  · intro x h
    rw [hholders]
    exact List.mem_cons_of_mem _ h
  · intro y hy
    rw [hholders] at hy
    rcases List.mem_cons.mp hy with rfl | hy
    · -- the new entry is nobody's own and on no ring
      refine Or.inr ⟨fun h => howned q h rfl, ?_⟩
      intro _ hmem
      rw [(hinv.mem .deleted q).mp hmem] at hfree
      cases hfree
    · exact Or.inl hy

/-- `doublylinkedlistAdd` prepares the entry that `malloc` has returned. -/
theorem Inv.add (hinv : Inv s) (hp : s.pc t = .idle) (key : UInt64) (data : List UInt8)
    (halloc : s.sh.heap.allocated q = false) (hactive : q ≠ s.sh.plist)
    (hdeleted : q ≠ deletedEntries s.sh.plist) :
    Inv (s.apply t ({ s.sh with
      heap := s.sh.heap.newEntry q key data
      place := Function.update s.sh.place q (.thread t)
      holders := (t, q) :: s.sh.holders
      delCalled := s.sh.delCalled.filter (· ≠ q) }, .addLock q)) := by
  have hfree := hinv.place_eq_free halloc hactive hdeleted
  have hnone := hinv.noHolder_of_free hfree
  constructor
  case excl => exact hinv.excl_apply hp (fun k => Effect.stay rfl rfl)
  case heads =>
    exact fun k x => (update_place_iff hfree (by simp) (by simp)).trans (hinv.heads k x)
  case mem =>
    exact fun k x => (hinv.mem k x).trans (update_place_iff hfree (by simp) (by simp)).symm
  case rings =>
    refine fun k => hinv.rings_quiet hp { s.sh with
      heap := s.sh.heap.newEntry q key data
      place := Function.update s.sh.place q (.thread t)
      holders := (t, q) :: s.sh.holders
      delCalled := s.sh.delCalled.filter (· ≠ q) } (.addLock q) rfl (fun _ => rfl)
      (fun _ => rfl) (fun _ => rfl) rfl rfl ?_ k
    intro x hx
    simp [Heap.newEntry, Function.update_of_ne (ne_of_place hfree hx)]
  case alloc =>
    intro x
    show (s.sh.heap.newEntry q key data).allocated x =
      (Function.update s.sh.place q (.thread t) x).isEntry
    by_cases hxq : x = q
    · simp [Heap.newEntry, hxq, Place.isEntry]
    · simp [Heap.newEntry, Function.update_of_ne hxq, hinv.alloc x]
  case own =>
    refine forall_pc (P := fun u p => ∀ x, p.own = some x →
      Function.update s.sh.place q (.thread t) x = .thread u) ?_ ?_
    · intro x hx
      cases hx
      exact Function.update_self _ _ _
    · intro u hu x hx
      exact (update_place_iff hfree (by simp) (by simpa using hu)).mpr (hinv.own u x hx)
  case target =>
    refine forall_pc (P := fun u p => ∀ x, p.target = some x →
      Function.update s.sh.place q (.thread t) x = .ring .active ∧
        x ∈ s.sh.delCalled.filter (· ≠ q)) ?_ ?_
    · intro x hx
      cases hx
    · intro u _ x hx
      obtain ⟨hplace, hd⟩ := hinv.target u x hx
      have hxq : x ≠ q := ne_of_place hfree (by rw [hplace]; simp)
      exact ⟨(update_place_iff hfree (by simp) (by simp)).mpr hplace,
        List.mem_filter.mpr ⟨hd, by simpa using hxq⟩⟩
  case targetInj =>
    refine hinv.targetInj_apply hp ?_
    intro x hx
    cases hx
  case flags =>
    intro x hx
    have hplace := (update_place_iff hfree (by simp) (by simp)).mp hx
    have hxq : x ≠ q := ne_of_place hfree (by rw [hplace]; simp)
    show (s.sh.heap.newEntry q key data).isDeleted x = true
    simp only [Heap.newEntry, Function.update_of_ne hxq]
    exact hinv.flags x hplace
  case refs =>
    intro x hx
    show ((s.sh.heap.newEntry q key data).references x).toNat =
      ((t, q) :: s.sh.holders).countP (·.2 = x)
    by_cases hxq : x = q
    · subst hxq
      have hzero : s.sh.holders.countP (·.2 = x) = 0 :=
        List.countP_eq_zero.mpr (fun y hy => by simpa using hnone y hy)
      simp [Heap.newEntry, hzero]
    · rw [List.countP_cons_of_neg (by simpa using Ne.symm hxq)]
      simp only [Heap.newEntry, Function.update_of_ne hxq]
      refine hinv.refs x ?_
      rw [← Function.update_of_ne hxq (Place.thread t) s.sh.place]
      exact hx
  case held =>
    intro y hy
    show (Function.update s.sh.place q (.thread t) y.2).isEntry = true
    rcases List.mem_cons.mp hy with rfl | hy
    · simp [Place.isEntry]
    · rw [Function.update_of_ne (hnone y hy)]
      exact hinv.held y hy
  case placed =>
    intro x hx hd
    show Function.update s.sh.place q (.thread t) x = _ ∨
      ∃ u, (Function.update s.pc t (.addLock q) u).adding = some x
    by_cases hxq : x = q
    · exact Or.inr ⟨t, by rw [Function.update_self, hxq]; rfl⟩
    · rw [Function.update_of_ne hxq]
      have hx' : (s.sh.place x).isEntry = true := by
        rw [← Function.update_of_ne hxq (Place.thread t) s.sh.place]
        exact hx
      have hd' : x ∉ s.sh.delCalled :=
        fun hmem => hd (List.mem_filter.mpr ⟨hmem, by simpa using hxq⟩)
      rcases hinv.placed x hx' hd' with h | h
      · exact Or.inl h
      · refine Or.inr (adding_apply hp ?_ h)
        intro he
        cases he
  case knows =>
    refine forall_pc (P := fun u p => Knows _ u p) ?_ fun u _ =>
      hinv.knows_add (t := t) hfree (by rfl) (by rfl) (by rfl) (by rfl) u
    -- the thread that adds the entry is its only holder
    intro y hy he
    rcases List.mem_cons.mp hy with rfl | hy
    · rfl
    · exact absurd he (hnone y hy)

/-- `doublylinkedlistDel` is called on an entry that the thread holds and nobody has deleted
    yet: the entry is on the active ring, because whoever adds it is its only holder. -/
theorem Inv.delete (hinv : Inv s) (hp : s.pc t = .idle) (hheld : (t, q) ∈ s.sh.holders)
    (hnew : q ∉ s.sh.delCalled) :
    Inv (s.apply t ({ s.sh with delCalled := q :: s.sh.delCalled }, .delLock q)) := by
  have hplace : s.sh.place q = .ring .active := by
    rcases hinv.placed q (hinv.held _ hheld) hnew with h | ⟨u, hu⟩
    · exact h
    · have hku : Knows s.sh u (s.pc u) := hinv.knows u
      have htu : t = u := by
        cases hpc : s.pc u with
        | addLock x =>
          rw [hpc] at hu hku
          cases hu
          exact hku _ hheld rfl
        | addLink x m =>
          rw [hpc] at hu hku
          simp only [Pc.adding] at hu
          split at hu
          · next hm =>
            cases hu
            exact hku hm _ hheld rfl
          · cases hu
        | _ => rw [hpc] at hu; cases hu
      rw [← htu, hp] at hu
      cases hu
  constructor
  case excl => exact hinv.excl_apply hp (fun k => Effect.stay rfl rfl)
  case heads => exact hinv.heads
  case mem => exact hinv.mem
  case rings =>
    exact fun k => hinv.rings_quiet hp { s.sh with delCalled := q :: s.sh.delCalled }
      (.delLock q) rfl (fun _ => rfl) (fun _ => rfl) (fun _ => rfl) rfl rfl
      (fun _ _ => ⟨rfl, rfl⟩) k
  case alloc => exact hinv.alloc
  case own =>
    refine forall_pc (P := fun u p => ∀ x, p.own = some x → s.sh.place x = .thread u) ?_ ?_
    · intro x hx
      cases hx
    · exact fun u _ => hinv.own u
  case target =>
    refine forall_pc (P := fun u p => ∀ x, p.target = some x →
      s.sh.place x = .ring .active ∧ x ∈ q :: s.sh.delCalled) ?_ ?_
    · intro x hx
      cases hx
      exact ⟨hplace, by simp⟩
    · intro u _ x hx
      obtain ⟨hr, hd⟩ := hinv.target u x hx
      exact ⟨hr, List.mem_cons_of_mem _ hd⟩
  case targetInj =>
    -- the new target is nobody else's: theirs have been announced before
    have hother : ∀ u, u ≠ t → (s.pc u).target ≠ some q := by
      intro u _ hu
      exact hnew (hinv.target u q hu).2
    intro u v x hu hv
    simp only [State.apply] at hu hv
    by_cases hut : u = t <;> by_cases hvt : v = t
    · rw [hut, hvt]
    · subst hut
      rw [Function.update_self] at hu
      rw [Function.update_of_ne hvt] at hv
      cases hu
      exact absurd hv (hother v hvt)
    · subst hvt
      rw [Function.update_of_ne hut] at hu
      rw [Function.update_self] at hv
      cases hv
      exact absurd hu (hother u hut)
    · rw [Function.update_of_ne hut] at hu
      rw [Function.update_of_ne hvt] at hv
      exact hinv.targetInj u v x hu hv
  case flags => exact hinv.flags
  case refs => exact hinv.refs
  case held => exact hinv.held
  case placed =>
    intro x hx hd
    rcases hinv.placed x hx (fun h => hd (List.mem_cons_of_mem _ h)) with h | h
    · exact Or.inl h
    · refine Or.inr (adding_apply hp ?_ h)
      intro he
      cases he
  case knows =>
    refine forall_pc (P := fun u p => Knows _ u p) hheld ?_
    intro u _
    exact (hinv.knows u).congr rfl (fun _ _ => rfl) (fun _ _ h => h) (fun _ h => h)
      (fun _ h => Or.inl h)

end Niuchacz.DoublyLinkedList.Concurrent
