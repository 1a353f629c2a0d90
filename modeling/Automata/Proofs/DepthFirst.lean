import Automata.Graph.Move
import Mathlib.Data.List.Nodup

/-!
# Closures depth first

Every state that has been entered has its targets entered or on the stack (`Pending`), so
what is entered in the end is what epsilon edges lead to (`mem_enter`).
-/

namespace Automata.NondetGraph

/-- For each state an order in which to walk its epsilon targets. -/
structure TargetOrder (g : NondetGraph) where
  targets : State → List State
  perm : ∀ q, (targets q).Perm (g.epsilonTargets q)

variable {g : NondetGraph} {o : g.TargetOrder} {seen : StateSet} {stack l : List State} {p q r : State}

def unexplored (g : NondetGraph) (seen : StateSet) : SortedSet (Edge Symbol) := g.edges.filter (·.source ∉ seen)

theorem mem_unexplored {e : Edge Symbol} : e ∈ g.unexplored seen ↔ e ∈ g.edges ∧ e.source ∉ seen := by
  simp [unexplored]

/-- What has been entered has its epsilon targets entered or on the stack. -/
def Pending (g : NondetGraph) (seen : StateSet) (stack : List State) : Prop :=
  ∀ p ∈ seen, ∀ q, ⟨p, .epsilon, q⟩ ∈ g.edges → q ∈ seen ∨ q ∈ stack

theorem Pending.path (h : g.Pending seen stack) (hp : p ∈ seen) (hw : g.Path p [] r) :
    r ∈ seen ∨ ∃ q ∈ stack, g.Path q [] r := by
  generalize hnil : [] = w at hw
  induction hw with
  | nil => exact .inl hp
  | epsilon he hw ih =>
    subst hnil
    rcases h _ hp _ he with hq | hq
    · exact ih hq rfl
    · exact .inr ⟨_, hq, hw⟩
  | char => cases hnil

namespace TargetOrder

def ascending (g : NondetGraph) : g.TargetOrder := ⟨g.epsilonTargets, fun _ => .refl _⟩

theorem mem_targets (o : g.TargetOrder) : q ∈ o.targets p ↔ ⟨p, .epsilon, q⟩ ∈ g.edges :=
  (o.perm p).mem_iff.trans mem_epsilonTargets

def fresh (o : g.TargetOrder) (seen : StateSet) (q : State) : List State := (o.targets q).filter (· ∉ seen)

theorem mem_fresh : r ∈ o.fresh seen q ↔ ⟨q, .epsilon, r⟩ ∈ g.edges ∧ r ∉ seen := by
  simp [fresh, o.mem_targets]

theorem size_unexplored_insert (o : g.TargetOrder) (hq : q ∉ seen) :
    (g.unexplored (seen.insert q)).size + (o.targets q).length ≤ (g.unexplored seen).size := by
  have hinj : Function.Injective fun r => Edge.mk q Symbol.epsilon r := fun _ _ h => congrArg Edge.target h
  have hnodup : (o.targets q).Nodup := (o.perm q).nodup_iff.mpr (SortedSet.nodup_toList _)
  have hlen : (g.unexplored (seen.insert q)).size + (o.targets q).length =
      ((g.unexplored (seen.insert q)).toList ++ (o.targets q).map (Edge.mk q Symbol.epsilon)).length := by
    rw [List.length_append, List.length_map]
    rfl
  rw [hlen]
  refine List.Nodup.length_le_of_subset ?_ fun e he => ?_
  · refine List.nodup_append.mpr ⟨SortedSet.nodup_toList _, hnodup.map hinj, ?_⟩
    intro e he f hf hef
    obtain ⟨r, _, rfl⟩ := List.mem_map.mp hf
    subst hef
    exact (mem_unexplored.mp he).2 (SortedSet.mem_insert.mpr (.inl rfl))
  · refine mem_unexplored.mpr ?_
    rcases List.mem_append.mp he with he | he
    · obtain ⟨he, hs⟩ := mem_unexplored.mp he
      exact ⟨he, fun h => hs (SortedSet.mem_insert.mpr (.inr h))⟩
    · obtain ⟨r, hr, rfl⟩ := List.mem_map.mp he
      exact ⟨o.mem_targets.mp hr, hq⟩

/-! ## The search -/

/-- Enters what is on the stack and what is found behind it. -/
def enter (o : g.TargetOrder) : StateSet → List State → StateSet
  | seen, [] => seen
  | seen, q :: stack =>
    if q ∈ seen then o.enter seen stack else o.enter (seen.insert q) (o.fresh (seen.insert q) q ++ stack)
termination_by seen stack => (g.unexplored seen).size + stack.length
decreasing_by
  · simp
  · have hle := o.size_unexplored_insert ‹q ∉ seen›
    have hfresh : (o.fresh (seen.insert q) q).length ≤ (o.targets q).length := List.length_filter_le ..
    simp only [List.length_append, List.length_cons]
    omega

def closureFrom (o : g.TargetOrder) (q : State) : StateSet := o.enter ∅ [q]

def closureOf (o : g.TargetOrder) (l : List State) : StateSet := l.foldl (fun seen q => o.enter seen [q]) ∅

theorem pending_entered (h : g.Pending seen (q :: stack)) :
    g.Pending (seen.insert q) (o.fresh (seen.insert q) q ++ stack) := by
  intro p hp r he
  by_cases hr : r ∈ seen.insert q
  · exact .inl hr
  rw [List.mem_append, mem_fresh]
  rcases SortedSet.mem_insert.mp hp with rfl | hp
  · exact .inr (.inl ⟨he, hr⟩)
  · rcases h p hp r he with hrs | hrs
    · exact absurd (SortedSet.mem_insert.mpr (.inr hrs)) hr
    · rcases List.mem_cons.mp hrs with rfl | hrs
      · exact absurd (SortedSet.mem_insert.mpr (.inl rfl)) hr
      · exact .inr (.inr hrs)

theorem mem_enter (h : g.Pending seen stack) :
    r ∈ o.enter seen stack ↔ r ∈ seen ∨ ∃ p ∈ stack, g.Path p [] r := by
  induction seen, stack using enter.induct (o := o) with
  | case1 seen => simp [enter]
  | case2 seen q stack hq ih =>
    have hpending : g.Pending seen stack := fun p hp r he => by
      rcases h p hp r he with hr | hr
      · exact .inl hr
      · rcases List.mem_cons.mp hr with rfl | hr
        · exact .inl hq
        · exact .inr hr
    rw [enter, if_pos hq, ih hpending]
    simp only [List.mem_cons, or_and_right, exists_or, exists_eq_left]
    refine ⟨fun hr => ?_, fun hr => ?_⟩
    · exact hr.imp_right .inr
    · rcases hr with hr | hr | hr
      · exact .inl hr
      · exact hpending.path hq hr
      · exact .inr hr
  | case3 seen q stack hq ih =>
    have hpending := pending_entered (o := o) h
    rw [enter, if_neg hq, ih hpending]
    refine ⟨fun hr => ?_, fun hr => ?_⟩
    · rcases hr with hr | ⟨p, hp, hr⟩
      · rcases SortedSet.mem_insert.mp hr with rfl | hr
        · exact .inr ⟨r, List.mem_cons_self .., .nil r⟩
        · exact .inl hr
      · rcases List.mem_append.mp hp with hp | hp
        · exact .inr ⟨q, List.mem_cons_self .., .epsilon (mem_fresh.mp hp).1 hr⟩
        · exact .inr ⟨p, List.mem_cons_of_mem _ hp, hr⟩
    · rcases hr with hr | ⟨p, hp, hr⟩
      · exact .inl (SortedSet.mem_insert.mpr (.inr hr))
      · rcases List.mem_cons.mp hp with rfl | hp
        · exact hpending.path (SortedSet.mem_insert.mpr (.inl rfl)) hr
        · exact .inr ⟨p, List.mem_append.mpr (.inr hp), hr⟩

theorem pending_enter (h : g.Pending seen stack) : g.Pending (o.enter seen stack) [] := by
  intro p hp q he
  refine .inl ((mem_enter h).mpr ?_)
  rcases (mem_enter h).mp hp with hp | ⟨s, hs, hp⟩
  · exact (h p hp q he).imp_right fun hq => ⟨q, hq, .nil q⟩
  · exact .inr ⟨s, hs, hp.trans (.of_epsilon he)⟩

theorem mem_foldl_enter : ∀ {l : List State} {seen : StateSet}, g.Pending seen [] →
    (r ∈ l.foldl (fun seen q => o.enter seen [q]) seen ↔ r ∈ seen ∨ ∃ p ∈ l, g.Path p [] r)
  | [], seen, _ => by simp
  | q :: l, seen, h => by
    have hq : g.Pending seen [q] := fun p hp r he => (h p hp r he).imp_right fun hr => nomatch hr
    rw [List.foldl_cons, mem_foldl_enter (pending_enter hq), mem_enter hq]
    simp [or_assoc]

theorem mem_closureOf : r ∈ o.closureOf l ↔ ∃ p ∈ l, g.Path p [] r := by
  have h : g.Pending ∅ [] := fun p hp => absurd hp SortedSet.not_mem_empty
  rw [closureOf, mem_foldl_enter h]
  simp

theorem closureOf_eq_closure : o.closureOf l = g.closure (.ofList l) :=
  SortedSet.ext fun r => by simp [mem_closureOf, mem_closure]

theorem closureFrom_eq_closure : o.closureFrom q = g.closure (.singleton q) :=
  closureOf_eq_closure (l := [q])

end TargetOrder

/-- Whichever way the targets are walked, closing any origins depth first gives the closure of their set. -/
theorem depthFirst_closure_exact (g : NondetGraph) (o : g.TargetOrder) (l : List State) :
    o.closureOf l = g.closure (.ofList l) ∧
      (∀ r, r ∈ o.closureOf l ↔ ∃ p ∈ l, g.Path p [] r) ∧
      (∀ q, o.closureFrom q = o.closureOf [q] ∧ ∀ r, r ∈ o.closureFrom q ↔ g.Path q [] r) ∧
      (∀ (o' : g.TargetOrder) (l' : List State), (∀ q, q ∈ l' ↔ q ∈ l) → o'.closureOf l' = o.closureOf l) ∧
      (∀ q ∈ l, q ∈ o.closureOf l) ∧
      (∀ l' : List State, (∀ q ∈ l, q ∈ l') → ∀ r ∈ o.closureOf l, r ∈ o.closureOf l') ∧
      o.closureOf (o.closureOf l).toList = o.closureOf l := by
  have hmem : ∀ {o : g.TargetOrder} {l : List State} {r : State}, r ∈ o.closureOf l ↔ ∃ p ∈ l, g.Path p [] r :=
    TargetOrder.mem_closureOf
  refine ⟨TargetOrder.closureOf_eq_closure, fun r => hmem, fun q => ⟨rfl, fun r => ?_⟩, fun o' l' h => ?_,
    fun q hq => hmem.mpr ⟨q, hq, .nil q⟩, fun l' h r hr => ?_, ?_⟩
  · have hq : r ∈ o.closureFrom q ↔ ∃ p ∈ [q], g.Path p [] r := hmem (l := [q])
    simpa using hq
  · apply SortedSet.ext
    intro r
    simp only [hmem, h]
  · obtain ⟨p, hp, hr⟩ := hmem.mp hr
    exact hmem.mpr ⟨p, h p hp, hr⟩
  · simp only [TargetOrder.closureOf_eq_closure, SortedSet.ofList_toList, closure_closure]

/-- Epsilon edges round `0` and `1`, from `1` to itself, and on to `2`, which is not declared. -/
def epsilonRing : NondetGraph :=
  ⟨.ofList [⟨0⟩, ⟨1⟩, ⟨3⟩], .ofList [⟨⟨0⟩, .epsilon, ⟨1⟩⟩, ⟨⟨1⟩, .epsilon, ⟨0⟩⟩, ⟨⟨1⟩, .epsilon, ⟨1⟩⟩,
    ⟨⟨1⟩, .epsilon, ⟨2⟩⟩, ⟨⟨3⟩, .char 'x', ⟨0⟩⟩]⟩

theorem depthFirst_closure_exact_epsilonRing :
    (TargetOrder.ascending epsilonRing).closureOf [⟨3⟩, ⟨0⟩, ⟨3⟩] = .ofList [⟨0⟩, ⟨1⟩, ⟨2⟩, ⟨3⟩] ∧
      (∀ q, q ∈ [⟨0⟩, (⟨3⟩ : State)] ↔ q ∈ [⟨3⟩, ⟨0⟩, (⟨3⟩ : State)]) ∧
      (TargetOrder.ascending epsilonRing).closureOf [⟨0⟩, ⟨3⟩] =
        (TargetOrder.ascending epsilonRing).closureOf [⟨3⟩, ⟨0⟩, ⟨3⟩] ∧
      ⟨3⟩ ∈ (TargetOrder.ascending epsilonRing).closureOf [⟨3⟩, ⟨0⟩, ⟨3⟩] := by
  obtain ⟨hclosure, _, _, horder, hself, _⟩ :=
    depthFirst_closure_exact epsilonRing (.ascending epsilonRing) [⟨3⟩, ⟨0⟩, ⟨3⟩]
  have hsame : ∀ q, q ∈ [⟨0⟩, (⟨3⟩ : State)] ↔ q ∈ [⟨3⟩, ⟨0⟩, (⟨3⟩ : State)] := fun q => by
    simp [or_comm, or_left_comm]
  exact ⟨hclosure.trans rfl, hsame, horder _ _ hsame, hself ⟨3⟩ (List.mem_cons_self ..)⟩

end Automata.NondetGraph
