import Automata.Validity

/-!
# The fault that validation reports

Validation makes five checks and reports what the first of them finds that finds anything;
a check that looks at states or edges finds the least one that offends.
-/

namespace Automata

/-- The property holds of `x`, and otherwise only of what comes after `x`. -/
structure IsFirst {α : Type} (before : α → α → Prop) (P : α → Prop) (x : α) : Prop where
  holds : P x
  least : ∀ y, P y → x = y ∨ before x y

def State.Before (p q : State) : Prop := p.ordinal < q.ordinal

inductive Symbol.Before : Symbol → Symbol → Prop
  | epsilon (c : Char) : Before .epsilon (.char c)
  | char {c d : Char} : c < d → Before (.char c) (.char d)

def Edge.Before (e f : Edge Symbol) : Prop :=
  e.source.Before f.source ∨ e.source = f.source ∧
    (e.label.Before f.label ∨ e.label = f.label ∧ e.target.Before f.target)

theorem compare_char_eq_lt {c d : Char} : compare c d = .lt ↔ c < d := compareOfLessAndEq_eq_lt

theorem Symbol.compare_eq_lt : ∀ {x y : Symbol}, compare x y = .lt ↔ x.Before y
  | .epsilon, .epsilon => iff_of_false nofun nofun
  | .epsilon, .char c => iff_of_true rfl (.epsilon c)
  | .char _, .epsilon => iff_of_false nofun nofun
  | .char c, .char d => by
    constructor
    · intro h
      exact .char (compare_char_eq_lt.mp h)
    · intro h
      cases h with
      | char h => exact compare_char_eq_lt.mpr h

theorem Edge.compare_eq_lt {e f : Edge Symbol} : compare e f = .lt ↔ e.Before f := by
  have hsource : compare e.source f.source = .eq ↔ e.source = f.source := Std.compare_eq_iff_eq
  have hlabel : compare e.label f.label = .eq ↔ e.label = f.label := Std.compare_eq_iff_eq
  have h : compare e f = .lt ↔ compare e.source f.source = .lt ∨ compare e.source f.source = .eq ∧
      (compare e.label f.label = .lt ∨ compare e.label f.label = .eq ∧ compare e.target f.target = .lt) := by
    show compareLex (compareOn Edge.source) (compareLex (compareOn Edge.label) (compareOn Edge.target)) e f = .lt ↔ _
    simp only [compareLex, compareOn, Ordering.then_eq_lt]
  rw [h, hsource, hlabel, State.compare_eq_lt, State.compare_eq_lt, Symbol.compare_eq_lt]
  rfl

theorem SortedSet.least?_iff_isFirst {α : Type} [Ord α] [Std.TransOrd α] [Std.LawfulEqOrd α]
    {before : α → α → Prop} (hb : ∀ {a b : α}, compare a b = .lt ↔ before a b) {p : α → Bool} {s : SortedSet α}
    {a : α} : s.least? p = some a ↔ IsFirst before (fun a => a ∈ s ∧ p a) a := by
  rw [least?_eq_some_iff]
  simp only [hb]
  constructor
  · intro h
    exact ⟨⟨h.1, h.2.1⟩, fun b hb => h.2.2 b hb.1 hb.2⟩
  · intro h
    exact ⟨h.holds.1, h.holds.2, fun b hb hpb => h.least b ⟨hb, hpb⟩⟩

/-! ## The first gap of a deterministic graph -/

theorem findSome?_pair {α β : Type} {f : α → Option β} : ∀ {l : List α},
    l.findSome? (fun a => (f a).map (a, ·)) = (l.find? fun a => (f a).isSome).bind fun a => (f a).map (a, ·)
  | [] => rfl
  | a :: l => by
    cases h : f a with
    | none => simpa [h] using findSome?_pair
    | some b => simp [h]

namespace DetGraph

variable {g : DetGraph} {cs : Alphabet} {q : State} {c : Char}

def missing? (g : DetGraph) (cs : Alphabet) (q : State) : Option Char := cs.least? fun c => (g.target? q c).isNone

theorem head?_gaps_eq_findSome? :
    (g.gaps cs).head? = g.states.toList.findSome? fun q => (g.missing? cs q).map (q, ·) := by
  simp only [gaps, missing?, SortedSet.least?, List.head?_flatMap, List.head?_map, List.head?_filter]

theorem head?_gaps : (g.gaps cs).head? =
    (g.states.least? fun q => (g.missing? cs q).isSome).bind fun q => (g.missing? cs q).map (q, ·) := by
  rw [head?_gaps_eq_findSome?, findSome?_pair]
  rfl

theorem missing?_eq_some : g.missing? cs q = some c ↔ IsFirst (· < ·) (fun c => c ∈ cs ∧ g.target? q c = none) c := by
  simp only [missing?, SortedSet.least?_iff_isFirst compare_char_eq_lt, Option.isNone_iff_eq_none]

theorem isSome_missing? : (g.missing? cs q).isSome ↔ ∃ c, c ∈ cs ∧ g.target? q c = none := by
  rw [Option.isSome_iff_ne_none, ne_eq, missing?, SortedSet.least?_eq_none]
  simp

end DetGraph

namespace Automaton

variable {a : Automaton} {q : State} {c : Char} {err : Error}

/-! ## Checks -/

/-- What is looked at, in the order in which it is. -/
inductive Check
  | initial
  | finals
  | designations
  | edges
  | table

def Check.inOrder : List Check := [.initial, .finals, .designations, .edges, .table]

theorem Check.mem_inOrder (k : Check) : k ∈ inOrder := by cases k <;> simp [inOrder]

def DesignatedUndeclared (a : Automaton) (q : State) : Prop := (a.initial = some q ∨ q ∈ a.finals) ∧ q ∉ a.states

def EndUndeclared (a : Automaton) (e : Edge Symbol) : Prop := e ∈ a.edges ∧ (e.source ∉ a.states ∨ e.target ∉ a.states)

/-- The character is on some edge, but on none that leaves the state. -/
def Lacks (a : Automaton) (q : State) (c : Char) : Prop :=
  (∃ p r, ⟨p, .char c, r⟩ ∈ a.edges) ∧ ∀ r, ⟨q, .char c, r⟩ ∉ a.edges

def Passes (a : Automaton) : Check → Prop
  | .initial => ∃ p, a.initial = some p
  | .finals => ∃ q, q ∈ a.finals
  | .designations => ∀ q, ¬ a.DesignatedUndeclared q
  | .edges => ∀ e, ¬ a.EndUndeclared e
  | .table => a.table.isDet → ∀ q ∈ a.states, ∀ c, ¬ a.Lacks q c

inductive Finds (a : Automaton) : Check → Error → Prop
  | initial : a.initial = none → Finds a .initial .missingInitial
  | finals : (∀ q, q ∉ a.finals) → Finds a .finals .noFinalStates
  | designations {q : State} : IsFirst State.Before a.DesignatedUndeclared q →
    Finds a .designations (.undeclaredState q)
  | edges {p q : State} {x : Symbol} : IsFirst Edge.Before a.EndUndeclared ⟨p, x, q⟩ →
    Finds a .edges (.undeclaredTransition p x q)
  | table {q : State} {c : Char} : a.table.isDet → IsFirst State.Before (fun q => q ∈ a.states ∧ ∃ c, a.Lacks q c) q →
    IsFirst (· < ·) (a.Lacks q) c → Finds a .table (.incompleteTable q c)

/-! ## The checks that validation makes -/

def finding (a : Automaton) : Check → Option Error
  | .initial => if a.initial = none then some .missingInitial else none
  | .finals => if a.finals.isEmpty then some .noFinalStates else none
  | .designations => (a.designated.least? (· ∉ a.states)).map .undeclaredState
  | .edges => (a.edges.least? fun e => ¬ e.Within a.states).map fun e => .undeclaredTransition e.source e.label e.target
  | .table =>
    match a.table with
    | .det g => (g.gaps g.symbols).head?.map fun x => .incompleteTable x.1 x.2
    | .nondet _ => none

theorem validate_eq_firstFinding :
    a.validate = match Check.inOrder.findSome? a.finding with
      | none => .ok ()
      | some err => .error err := by
  unfold validate
  simp only [Check.inOrder, List.findSome?_cons, List.findSome?_nil, finding]
  split
  · rfl
  split
  · rfl
  simp only
  cases a.designated.least? (· ∉ a.states) with
  | some q => rfl
  | none =>
    cases a.edges.least? fun e => ¬ e.Within a.states with
    | some e => rfl
    | none =>
      cases a.table with
      | nondet h => rfl
      | det g =>
        simp only [Option.map_none, DetGraph.requireComplete]
        cases (g.gaps g.symbols).head? <;> rfl

theorem designatedUndeclared_iff : a.DesignatedUndeclared q ↔ q ∈ a.designated ∧ q ∉ a.states :=
  and_congr_left' mem_designated.symm

theorem endUndeclared_iff {e : Edge Symbol} : a.EndUndeclared e ↔ e ∈ a.edges ∧ ¬ e.Within a.states :=
  and_congr_right' Classical.not_and_iff_not_or_not.symm

theorem lacks_iff {g : DetGraph} (hg : a.table = .det g) : a.Lacks q c ↔ c ∈ g.symbols ∧ g.target? q c = none := by
  simp only [Lacks, mem_edges_of_det hg, DetGraph.mem_symbols, DetGraph.target?_eq_none]

theorem passes_iff : ∀ {k : Check}, a.finding k = none ↔ a.Passes k
  | .initial => by simp [finding, Passes, Option.ne_none_iff_exists']
  | .finals => by simp [finding, Passes, SortedSet.isEmpty_iff]
  | .designations => by simp [finding, Passes, SortedSet.least?_eq_none, designatedUndeclared_iff]
  | .edges => by simp [finding, Passes, SortedSet.least?_eq_none, endUndeclared_iff]
  | .table => by
    cases hg : a.table with
    | nondet h => simp [finding, Passes, hg, Table.isDet]
    | det g =>
      have hs : ∀ q, q ∈ a.states ↔ q ∈ g.states := fun q => by rw [states_of_det hg]
      have hgaps : (g.gaps g.symbols).head? = none ↔ ∀ q c, (q, c) ∉ g.gaps g.symbols := by
        rw [List.head?_eq_none_iff, List.eq_nil_iff_forall_not_mem, Prod.forall]
      simp only [finding, Passes, hg, Table.isDet, forall_const, Option.map_eq_none_iff, hgaps, DetGraph.mem_gaps, hs,
        lacks_iff hg, not_and]
      exact forall_congr' fun q => forall_comm

/-! ## What each check finds -/

theorem least?_designated :
    a.designated.least? (· ∉ a.states) = some q ↔ IsFirst State.Before a.DesignatedUndeclared q := by
  have h : a.DesignatedUndeclared = fun q => q ∈ a.designated ∧ q ∉ a.states :=
    funext fun _ => propext designatedUndeclared_iff
  rw [SortedSet.least?_iff_isFirst State.compare_eq_lt, h]
  simp only [decide_eq_true_eq]
  rfl

theorem least?_edges {e : Edge Symbol} :
    (a.edges.least? fun e => ¬ e.Within a.states) = some e ↔ IsFirst Edge.Before a.EndUndeclared e := by
  have h : a.EndUndeclared = fun e => e ∈ a.edges ∧ ¬ e.Within a.states :=
    funext fun _ => propext endUndeclared_iff
  rw [SortedSet.least?_iff_isFirst Edge.compare_eq_lt, h]
  simp only [decide_eq_true_eq]

theorem head?_gaps_iff {g : DetGraph} (hg : a.table = .det g) : (g.gaps g.symbols).head? = some (q, c) ↔
    IsFirst State.Before (fun q => q ∈ a.states ∧ ∃ c, a.Lacks q c) q ∧ IsFirst (· < ·) (a.Lacks q) c := by
  have hlacks : ∀ q, a.Lacks q = fun c => c ∈ g.symbols ∧ g.target? q c = none :=
    fun q => funext fun _ => propext (lacks_iff hg)
  have hchar : g.missing? g.symbols q = some c ↔ IsFirst (· < ·) (a.Lacks q) c := by
    rw [DetGraph.missing?_eq_some, hlacks]
  have hstate : (g.states.least? fun q => (g.missing? g.symbols q).isSome) = some q ↔
      IsFirst State.Before (fun q => q ∈ a.states ∧ ∃ c, a.Lacks q c) q := by
    simp only [SortedSet.least?_iff_isFirst State.compare_eq_lt, DetGraph.isSome_missing?, states_of_det hg, hlacks]
    rfl
  rw [DetGraph.head?_gaps, ← hchar, ← hstate, Option.bind_eq_some_iff]
  constructor
  · intro h
    obtain ⟨r, hr, h⟩ := h
    obtain ⟨d, hd, h⟩ := Option.map_eq_some_iff.mp h
    cases h
    exact ⟨hr, hd⟩
  · intro h
    exact ⟨q, h.1, Option.map_eq_some_iff.mpr ⟨c, h.2, rfl⟩⟩

theorem finds_iff {k : Check} : a.finding k = some err ↔ a.Finds k err := by
  constructor
  · intro h
    cases k with
    | initial =>
      simp only [finding] at h
      split at h
      · cases h
        exact .initial ‹_›
      · cases h
    | finals =>
      simp only [finding] at h
      split at h
      · cases h
        exact .finals (SortedSet.isEmpty_iff.mp ‹_›)
      · cases h
    | designations =>
      obtain ⟨q, hq, rfl⟩ := Option.map_eq_some_iff.mp h
      exact .designations (least?_designated.mp hq)
    | edges =>
      obtain ⟨e, he, rfl⟩ := Option.map_eq_some_iff.mp h
      exact .edges (least?_edges.mp he)
    | table =>
      cases hg : a.table with
      | nondet h' =>
        simp only [finding, hg] at h
        cases h
      | det g =>
        simp only [finding, hg] at h
        obtain ⟨⟨q, c⟩, hx, rfl⟩ := Option.map_eq_some_iff.mp h
        obtain ⟨hq, hc⟩ := (head?_gaps_iff hg).mp hx
        exact .table (by rw [hg]; rfl) hq hc
  · intro h
    cases h with
    | initial h => exact if_pos h
    | finals h => exact if_pos (SortedSet.isEmpty_iff.mpr h)
    | designations hq => exact Option.map_eq_some_iff.mpr ⟨_, least?_designated.mpr hq, rfl⟩
    | edges he => exact Option.map_eq_some_iff.mpr ⟨_, least?_edges.mpr he, rfl⟩
    | table hd hq hc =>
      cases hg : a.table with
      | nondet h' =>
        rw [hg] at hd
        cases hd
      | det g =>
        simp only [finding, hg]
        exact Option.map_eq_some_iff.mpr ⟨_, (head?_gaps_iff hg).mpr ⟨hq, hc⟩, rfl⟩

/-- Validation passes iff all checks do, and else reports the least finding of the first that does not. -/
theorem validate_reports_first_finding (a : Automaton) :
    (a.validate = .ok () ↔ ∀ k, a.Passes k) ∧
      ∀ err, a.validate = .error err ↔
        ∃ before k after, Check.inOrder = before ++ k :: after ∧ a.Finds k err ∧ ∀ j ∈ before, a.Passes j := by
  rw [validate_eq_firstFinding]
  constructor
  · have h : (∀ k, a.Passes k) ↔ Check.inOrder.findSome? a.finding = none := by
      simp only [List.findSome?_eq_none_iff, Check.mem_inOrder, forall_const, passes_iff]
    rw [h]
    cases Check.inOrder.findSome? a.finding <;> simp
  · intro err
    simp only [← passes_iff, ← finds_iff, ← List.findSome?_eq_some_iff]
    cases Check.inOrder.findSome? a.finding <;> simp

/-- Two edges offend, and the epsilon edge comes first. -/
example : (ofTable (.nondet ⟨.ofList [⟨1⟩], .ofList [⟨⟨1⟩, .char 'x', ⟨2⟩⟩, ⟨⟨1⟩, .epsilon, ⟨3⟩⟩]⟩) (some ⟨1⟩)
    (.singleton ⟨1⟩)).validate = .error (.undeclaredTransition ⟨1⟩ .epsilon ⟨3⟩) := rfl

end Automaton

end Automata
