/-!
# Breadth-first search

The nodes found so far are kept in the order of their discovery, so no queue is needed.
At most a given number of them is expanded; if no more are found, all have been.
-/

namespace Automata.Search

variable {α : Type} (next : α → List α)

inductive Reachable (starts : List α) : α → Prop
  | start {x : α} : x ∈ starts → Reachable starts x
  | step {x y : α} : Reachable starts x → y ∈ next x → Reachable starts y

variable [DecidableEq α]

def extend (found : List α) : List α → List α
  | [] => found
  | x :: l => if x ∈ found then extend found l else extend (found ++ [x]) l

/-- Expands the nodes from position `i` on, at most `rounds` of them. -/
def expand : Nat → Nat → List α → List α
  | 0, _, found => found
  | rounds + 1, i, found =>
    match found[i]? with
    | none => found
    | some x => expand rounds (i + 1) (extend found (next x))

def search (starts : List α) (rounds : Nat) : List α := expand next rounds 0 (extend [] starts)

theorem extend_cons {found l : List α} {x : α} : extend found (x :: l) = extend (extend found [x]) l := by
  simp only [extend]
  split <;> rfl

theorem extend_eq_append : ∀ (found l : List α), ∃ m, extend found l = found ++ m
  | found, [] => ⟨[], by simp [extend]⟩
  | found, x :: l => by
    rw [extend]; split
    · exact extend_eq_append found l
    · obtain ⟨m, hm⟩ := extend_eq_append (found ++ [x]) l
      exact ⟨x :: m, by simp [hm]⟩

theorem mem_extend {x : α} : ∀ {found l : List α}, x ∈ extend found l ↔ x ∈ found ∨ x ∈ l
  | found, [] => by simp [extend]
  | found, y :: l => by
    rw [extend]; split <;> rename_i h
    · rw [mem_extend, List.mem_cons]
      constructor
      · exact Or.imp_right .inr
      · intro hz
        rcases hz with h' | rfl | h'
        · exact .inl h'
        · exact .inl h
        · exact .inr h'
    · simp [mem_extend, or_assoc]

theorem nodup_extend : ∀ {found l : List α}, found.Nodup → (extend found l).Nodup
  | found, [], h => by simpa [extend] using h
  | found, x :: l, h => by
    rw [extend]; split <;> rename_i hx
    · exact nodup_extend h
    · refine nodup_extend (List.nodup_append.mpr ⟨h, by simp, fun a ha b hb e => hx ?_⟩)
      rw [← List.mem_singleton.mp hb, ← e]; exact ha

/-! ## Expansion -/

variable {next}

theorem expand_eq_append : ∀ (rounds i : Nat) (found : List α), ∃ m, expand next rounds i found = found ++ m
  | 0, _, found => ⟨[], by simp [expand]⟩
  | rounds + 1, i, found => by
    rw [expand]; split
    · exact ⟨[], by simp⟩
    · rename_i x _
      obtain ⟨m, hm⟩ := extend_eq_append found (next x)
      obtain ⟨m', hm'⟩ := expand_eq_append rounds (i + 1) (extend found (next x))
      exact ⟨m ++ m', by rw [hm', hm, List.append_assoc]⟩

theorem nodup_expand : ∀ {rounds i : Nat} {found : List α}, found.Nodup → (expand next rounds i found).Nodup
  | 0, _, _, h => h
  | rounds + 1, i, found, h => by
    rw [expand]; split
    · exact h
    · exact nodup_expand (nodup_extend h)

theorem expand_reachable {starts : List α} : ∀ {rounds i : Nat} {found : List α},
    (∀ x ∈ found, Reachable next starts x) → ∀ x ∈ expand next rounds i found, Reachable next starts x
  | 0, _, _, h => h
  | rounds + 1, i, found, h => by
    rw [expand]; split
    · exact h
    · rename_i y hy
      refine expand_reachable fun x hx => ?_
      rcases mem_extend.mp hx with hx | hx
      · exact h x hx
      · exact .step (h y (List.mem_of_getElem? hy)) hx

/-- If the nodes before `i` are expanded already, then the next one is among them once it is expanded. -/
theorem extend_closed {i : Nat} {found : List α} {x : α} (h : ∀ z ∈ found.take i, ∀ y ∈ next z, y ∈ found)
    (hi : found[i]? = some x) :
    ∀ z ∈ (extend found (next x)).take (i + 1), ∀ y ∈ next z, y ∈ extend found (next x) := by
  intro z hz y hy
  obtain ⟨m, hm⟩ := extend_eq_append found (next x)
  obtain ⟨hlt, hx⟩ := List.getElem?_eq_some_iff.mp hi
  rw [hm, List.take_append_of_le_length hlt, List.take_add_one, hi, List.mem_append] at hz
  rw [mem_extend]
  rcases hz with hz | hz
  · exact .inl (h z hz y hy)
  · obtain rfl : z = x := by simpa using hz
    exact .inr hy

/-- If the nodes before `i` are expanded already, then all nodes are in the end, unless there are
more nodes than the rounds can expand. -/
theorem expand_closed : ∀ {rounds i : Nat} {found : List α},
    (∀ x ∈ found.take i, ∀ y ∈ next x, y ∈ found) →
    (expand next rounds i found).length ≤ i + rounds →
    ∀ x ∈ expand next rounds i found, ∀ y ∈ next x, y ∈ expand next rounds i found
  | 0, i, found, h, hl => by
    simp only [expand, Nat.add_zero] at hl ⊢
    rwa [List.take_of_length_le hl] at h
  | rounds + 1, i, found, h, hl => by
    rw [expand] at hl ⊢
    split at hl <;> rename_i hi
    · rwa [List.take_of_length_le (List.getElem?_eq_none_iff.mp hi)] at h
    · exact expand_closed (extend_closed h hi) (by omega)

/-- Once the nodes are no more than have been expanded, further rounds find nothing. -/
theorem expand_add : ∀ {rounds more i : Nat} {found : List α}, (expand next rounds i found).length ≤ i + rounds →
    expand next (rounds + more) i found = expand next rounds i found
  | 0, 0, _, _, _ => rfl
  | 0, more + 1, i, found, h => by
    have hi : found[i]? = none := List.getElem?_eq_none_iff.mpr h
    simp only [expand, hi]
  | rounds + 1, more, i, found, h => by
    rw [Nat.add_right_comm]
    rw [expand] at h
    rw [expand, expand]
    split at h
    · rfl
    · exact expand_add (by omega)

/-! ## Search -/

theorem nodup_search {starts : List α} {rounds : Nat} : (search next starts rounds).Nodup :=
  nodup_expand (nodup_extend List.nodup_nil)

theorem search_reachable {starts : List α} {rounds : Nat} {x : α} (hx : x ∈ search next starts rounds) :
    Reachable next starts x :=
  expand_reachable (fun y hy => .start (by simpa [mem_extend] using hy)) x hx

theorem head?_search {x : α} {starts : List α} {rounds : Nat} :
    (search next (x :: starts) rounds).head? = some x := by
  obtain ⟨m, hm⟩ := @expand_eq_append _ next _ rounds 0 (extend [] (x :: starts))
  obtain ⟨m', hm'⟩ := extend_eq_append [x] starts
  have h : extend [] (x :: starts) = extend [x] starts := by simp [extend]
  rw [search, hm, h, hm']
  simp

theorem start_mem_search {starts : List α} {rounds : Nat} {x : α} (hx : x ∈ starts) :
    x ∈ search next starts rounds := by
  obtain ⟨m, hm⟩ := @expand_eq_append _ next _ rounds 0 (extend [] starts)
  rw [search, hm]
  exact List.mem_append.mpr (.inl (mem_extend.mpr (.inr hx)))

theorem mem_search {starts : List α} {rounds : Nat} (h : (search next starts rounds).length ≤ rounds) {x : α} :
    x ∈ search next starts rounds ↔ Reachable next starts x := by
  refine ⟨search_reachable, fun hx => ?_⟩
  induction hx with
  | start hx => exact start_mem_search hx
  | step _ hy ih => exact expand_closed (by simp) (by rwa [Nat.zero_add]) _ ih _ hy

theorem search_of_le {starts : List α} {rounds more : Nat} (h : (search next starts rounds).length ≤ rounds)
    (hle : rounds ≤ more) : search next starts more = search next starts rounds := by
  obtain ⟨k, rfl⟩ := Nat.exists_eq_add_of_le hle
  exact expand_add (by rwa [Nat.zero_add])

end Automata.Search
