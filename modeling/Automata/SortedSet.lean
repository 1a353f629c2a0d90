/-!
# Finite sets as ascending lists

A finite set is the list of its members in strictly ascending order, so equality of sets is
equality of lists. Each operation is given by what it does to membership.
-/

namespace Automata

structure SortedSet (α : Type) [Ord α] where
  toList : List α
  ascending : toList.Pairwise fun a b => compare a b = .lt
deriving DecidableEq

namespace SortedSet

variable {α β : Type} [Ord α] [Ord β]

instance : Membership α (SortedSet α) := ⟨fun s a => a ∈ s.toList⟩

instance [DecidableEq α] (a : α) (s : SortedSet α) : Decidable (a ∈ s) :=
  inferInstanceAs (Decidable (a ∈ s.toList))

@[simp] theorem mem_toList {a : α} {s : SortedSet α} : a ∈ s.toList ↔ a ∈ s := Iff.rfl

instance : EmptyCollection (SortedSet α) := ⟨⟨[], .nil⟩⟩

instance : Inhabited (SortedSet α) := ⟨∅⟩

@[simp] theorem toList_empty : (∅ : SortedSet α).toList = [] := rfl

@[simp] theorem not_mem_empty {a : α} : a ∉ (∅ : SortedSet α) := List.not_mem_nil

def size (s : SortedSet α) : Nat := s.toList.length

def isEmpty (s : SortedSet α) : Bool := s.toList.isEmpty

theorem isEmpty_iff {s : SortedSet α} : s.isEmpty ↔ ∀ a, a ∉ s := by
  rw [isEmpty, List.isEmpty_iff, List.eq_nil_iff_forall_not_mem]
  rfl

def filter (p : α → Bool) (s : SortedSet α) : SortedSet α :=
  ⟨s.toList.filter p, s.ascending.filter p⟩

@[simp] theorem mem_filter {p : α → Bool} {s : SortedSet α} {a : α} : a ∈ s.filter p ↔ a ∈ s ∧ p a :=
  List.mem_filter

def erase [DecidableEq α] (s : SortedSet α) (a : α) : SortedSet α := s.filter (· ≠ a)

@[simp] theorem mem_erase [DecidableEq α] {s : SortedSet α} {a b : α} : b ∈ s.erase a ↔ b ∈ s ∧ b ≠ a := by
  simp [erase]

def inter [DecidableEq α] (s t : SortedSet α) : SortedSet α := s.filter (· ∈ t)

@[simp] theorem mem_inter [DecidableEq α] {s t : SortedSet α} {a : α} : a ∈ s.inter t ↔ a ∈ s ∧ a ∈ t := by
  simp [inter]

def meets [DecidableEq α] (s t : SortedSet α) : Bool := s.toList.any (· ∈ t)

theorem meets_iff [DecidableEq α] {s t : SortedSet α} : s.meets t ↔ ∃ a, a ∈ s ∧ a ∈ t := by
  simp [meets, List.any_eq_true]

/-- The first member with the property; `least?_eq_some` says that it is the least. -/
def least? (p : α → Bool) (s : SortedSet α) : Option α := s.toList.find? p

theorem least?_eq_none {p : α → Bool} {s : SortedSet α} : s.least? p = none ↔ ∀ a ∈ s, ¬ p a := by
  simp [least?]

theorem least?_eq_some {p : α → Bool} {s : SortedSet α} {a : α} (h : s.least? p = some a) :
    a ∈ s ∧ p a ∧ ∀ b ∈ s, p b → a = b ∨ compare a b = .lt := by
  obtain ⟨hp, l, m, hl, hn⟩ := List.find?_eq_some_iff_append.mp h
  have hasc := s.ascending
  rw [hl, List.pairwise_append, List.pairwise_cons] at hasc
  refine ⟨?_, hp, fun b hb hpb => ?_⟩
  · rw [← mem_toList, hl]; simp
  · rw [← mem_toList, hl, List.mem_append, List.mem_cons] at hb
    rcases hb with hb | rfl | hb
    · exact absurd hpb (by simpa using hn b hb)
    · exact .inl rfl
    · exact .inr (hasc.2.1.1 b hb)

/-! ## Extensionality -/

theorem lt_irrefl [Std.LawfulEqOrd α] (a : α) : compare a a ≠ .lt := by
  rw [Std.compare_eq_iff_eq.mpr rfl]; exact nofun

theorem lt_trans [Std.TransOrd α] {a b c : α} (h : compare a b = .lt) (h' : compare b c = .lt) :
    compare a c = .lt :=
  Std.TransCmp.lt_trans h h'

theorem nodup_toList [Std.LawfulEqOrd α] (s : SortedSet α) : s.toList.Nodup := by
  refine List.Pairwise.imp ?_ s.ascending
  intro a b h hab
  subst hab
  exact lt_irrefl a h

variable [Std.TransOrd α] [Std.LawfulEqOrd α] [Std.TransOrd β] [Std.LawfulEqOrd β]

theorem ascending_ext : ∀ {l m : List α}, l.Pairwise (fun a b => compare a b = .lt) →
    m.Pairwise (fun a b => compare a b = .lt) → (∀ a, a ∈ l ↔ a ∈ m) → l = m
  | [], [], _, _, _ => rfl
  | [], b :: _, _, _, h => nomatch (h b).mpr (List.mem_cons_self ..)
  | a :: _, [], _, _, h => nomatch (h a).mp (List.mem_cons_self ..)
  | a :: l, b :: m, hl, hm, h => by
    rw [List.pairwise_cons] at hl hm
    have e : a = b := by
      rcases List.mem_cons.mp ((h a).mp (List.mem_cons_self ..)) with e | ha
      · exact e
      rcases List.mem_cons.mp ((h b).mpr (List.mem_cons_self ..)) with e | hb
      · exact e.symm
      exact absurd (lt_trans (hm.1 a ha) (hl.1 b hb)) (lt_irrefl b)
    subst e
    have ha : a ∉ l := fun ha => lt_irrefl a (hl.1 a ha)
    have hb : a ∉ m := fun hb => lt_irrefl a (hm.1 a hb)
    rw [ascending_ext hl.2 hm.2 fun c => ?_]
    by_cases hc : c = a
    · simp [hc, ha, hb]
    · simpa [hc] using h c

theorem ext {s t : SortedSet α} (h : ∀ a, a ∈ s ↔ a ∈ t) : s = t := by
  obtain ⟨l, hl⟩ := s
  obtain ⟨m, hm⟩ := t
  obtain rfl : l = m := ascending_ext hl hm h
  rfl

omit [Std.TransOrd α] [Std.LawfulEqOrd α] in
theorem toList_inj {s t : SortedSet α} : s.toList = t.toList ↔ s = t := by
  cases s; cases t; simp

theorem ne_empty_iff {s : SortedSet α} : s ≠ ∅ ↔ ∃ a, a ∈ s := by
  constructor
  · intro h
    exact Classical.byContradiction fun hn => h (ext fun a => iff_of_false (fun ha => hn ⟨a, ha⟩) not_mem_empty)
  · intro h e
    obtain ⟨a, ha⟩ := h
    exact not_mem_empty (e ▸ ha)

theorem least?_eq_some_iff {p : α → Bool} {s : SortedSet α} {a : α} :
    s.least? p = some a ↔ a ∈ s ∧ p a ∧ ∀ b ∈ s, p b → a = b ∨ compare a b = .lt := by
  refine ⟨least?_eq_some, fun h => ?_⟩
  obtain ⟨ha, hp, hmin⟩ := h
  cases hl : s.least? p with
  | none => exact absurd hp (least?_eq_none.mp hl a ha)
  | some b =>
    obtain ⟨hb, hpb, hbmin⟩ := least?_eq_some hl
    rcases hmin b hb hpb with rfl | hab
    · rfl
    rcases hbmin a ha hp with rfl | hba
    · rfl
    · exact absurd (lt_trans hab hba) (lt_irrefl a)

/-! ## Insertion -/

def insertList (a : α) : List α → List α
  | [] => [a]
  | b :: l =>
    match compare a b with
    | .lt => a :: b :: l
    | .eq => b :: l
    | .gt => b :: insertList a l

omit [Std.TransOrd α] in
theorem mem_insertList {a b : α} : ∀ {l : List α}, b ∈ insertList a l ↔ b = a ∨ b ∈ l
  | [] => by simp [insertList]
  | c :: l => by
    rw [insertList]
    split <;> rename_i h
    · simp
    · simp [Std.compare_eq_iff_eq.mp h]
    · simp only [List.mem_cons, mem_insertList]; exact or_left_comm

theorem insertList_ascending {a : α} : ∀ {l : List α}, l.Pairwise (fun a b => compare a b = .lt) →
    (insertList a l).Pairwise fun a b => compare a b = .lt
  | [], _ => List.pairwise_singleton ..
  | c :: l, h => by
    rw [insertList]
    split <;> rename_i hc
    · refine List.pairwise_cons.mpr ⟨fun b hb => ?_, h⟩
      rcases List.mem_cons.mp hb with rfl | hb
      · exact hc
      · exact lt_trans hc ((List.pairwise_cons.mp h).1 b hb)
    · exact h
    · rw [List.pairwise_cons] at h
      refine List.pairwise_cons.mpr ⟨fun b hb => ?_, insertList_ascending h.2⟩
      rcases mem_insertList.mp hb with rfl | hb
      · exact Std.OrientedCmp.gt_iff_lt.mp hc
      · exact h.1 b hb

def insert (s : SortedSet α) (a : α) : SortedSet α :=
  ⟨insertList a s.toList, insertList_ascending s.ascending⟩

@[simp] theorem mem_insert {s : SortedSet α} {a b : α} : b ∈ s.insert a ↔ b = a ∨ b ∈ s := mem_insertList

/-! ## Sets from lists and from sets -/

def singleton (a : α) : SortedSet α := ⟨[a], List.pairwise_singleton ..⟩

omit [Std.TransOrd α] [Std.LawfulEqOrd α] in
@[simp] theorem mem_singleton {a b : α} : b ∈ singleton a ↔ b = a := List.mem_singleton

/-- Adds the members of the list, last first: an ascending list is then added in linear time. -/
def insertMany (s : SortedSet α) (l : List α) : SortedSet α := l.foldr (fun a t => t.insert a) s

@[simp] theorem mem_insertMany {s : SortedSet α} {a : α} :
    ∀ {l : List α}, a ∈ s.insertMany l ↔ a ∈ l ∨ a ∈ s
  | [] => by simp [insertMany]
  | b :: l => by
    have ih := mem_insertMany (s := s) (a := a) (l := l)
    simp only [insertMany, List.foldr_cons, mem_insert, List.mem_cons] at ih ⊢
    rw [ih, or_assoc]

def ofList (l : List α) : SortedSet α := insertMany ∅ l

@[simp] theorem mem_ofList {l : List α} {a : α} : a ∈ ofList l ↔ a ∈ l := by simp [ofList]

@[simp] theorem ofList_toList (s : SortedSet α) : ofList s.toList = s := ext fun _ => mem_ofList

theorem size_ofList {l : List α} (h : l.Nodup) : (ofList l).size = l.length :=
  Nat.le_antisymm ((nodup_toList _).length_le_of_subset fun _ ha => mem_ofList.mp ha)
    (h.length_le_of_subset fun _ ha => mem_ofList.mpr ha)

instance : Union (SortedSet α) := ⟨fun s t => t.insertMany s.toList⟩

@[simp] theorem mem_union {s t : SortedSet α} {a : α} : a ∈ s ∪ t ↔ a ∈ s ∨ a ∈ t := mem_insertMany

def map (f : α → β) (s : SortedSet α) : SortedSet β := ofList (s.toList.map f)

omit [Std.TransOrd α] [Std.LawfulEqOrd α] in
@[simp] theorem mem_map {f : α → β} {s : SortedSet α} {b : β} : b ∈ s.map f ↔ ∃ a, a ∈ s ∧ f a = b := by
  simp [map]

def filterMap (f : α → Option β) (s : SortedSet α) : SortedSet β := ofList (s.toList.filterMap f)

omit [Std.TransOrd α] [Std.LawfulEqOrd α] in
@[simp] theorem mem_filterMap {f : α → Option β} {s : SortedSet α} {b : β} :
    b ∈ s.filterMap f ↔ ∃ a, a ∈ s ∧ f a = some b := by
  simp [filterMap]

instance : Ord (SortedSet α) := ⟨compareOn toList⟩

instance : Std.TransOrd (SortedSet α) := inferInstanceAs (Std.TransCmp (compareOn toList))

instance : Std.LawfulEqOrd (SortedSet α) where
  eq_of_compare h := ext fun a => by
    rw [← mem_toList, ← mem_toList, Std.LawfulEqOrd.eq_of_compare (α := List α) h]

end SortedSet

end Automata
