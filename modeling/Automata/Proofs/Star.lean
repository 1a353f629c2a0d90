import Automata.Proofs.Gluing

/-!
# The language of the star

A run reads words of the operand in sequence and may stop whenever it is back at the
initial state (`spells_starred`).
-/

namespace Automata.Automaton

open scoped Computability

variable {a : Automaton} {p : State} {w : List Char}

def starred (a : Automaton) (p : State) : Automaton :=
  ⟨.nondet (a.graph.glued a.finals p), some p, a.finals.insert p, a.options⟩

theorem star_eq_ok {s : Automaton} (h : a.star = .ok s) : ∃ p, a.initial = some p ∧ s = a.starred p := by
  unfold star at h
  cases hp : a.initial with
  | none =>
    rw [hp] at h
    cases h
  | some p =>
    simp only [hp] at h
    cases hg : a.graph.glue a.finals p with
    | error err =>
      rw [hg] at h
      cases h
    | ok g =>
      obtain ⟨_, rfl⟩ := NondetGraph.glue_eq_ok.mp hg
      rw [hg] at h
      cases h
      exact ⟨p, rfl, rfl⟩

theorem star_of_valid (h : a.Valid) (hp : a.initial = some p) : a.star = .ok (a.starred p) := by
  have hg : a.graph.glue a.finals p = .ok (a.graph.glued a.finals p) :=
    NondetGraph.glue_of_declared (fun _ hq => h.final_declared hq) (h.initial_declared hp)
  unfold star
  rw [hp]
  simp only [hg]
  rfl

theorem WellFormed.starred (h : a.WellFormed) (hp : a.initial = some p) : (a.starred p).WellFormed := by
  have hs := h.initial_declared hp
  have hf : ∀ q ∈ a.finals, q ∈ a.graph.states := fun _ hq => h.final_declared hq
  refine wellFormed_of_nondet hs ?_ (NondetGraph.closed_glued h.closed hf hs)
  intro q hq
  rcases SortedSet.mem_insert.mp hq with rfl | hq
  · exact hs
  · exact hf q hq

theorem Valid.starred (h : a.Valid) (hp : a.initial = some p) : (a.starred p).Valid :=
  (h.wellFormed.starred hp).valid nofun ⟨p, SortedSet.mem_insert.mpr (.inl rfl)⟩ nofun

def returns (a : Automaton) (p : State) : Language Char := {w | a.graph.Path p w p}

theorem language_eq_rounds (h : a.Valid) (ht : a.options.trailing = .follow) (hp : a.initial = some p) :
    a.language = a.graph.rounds a.finals p := by
  apply Language.ext
  intro w
  rw [mem_language h, ht, spells_of_initial hp]
  rfl

theorem spells_starred :
    (a.starred p).Spells .follow w ↔ w ∈ (a.graph.rounds a.finals p)∗ * a.returns p := by
  have hp : (a.starred p).initial = some p := rfl
  rw [spells_of_initial hp, Language.mem_mul]
  constructor
  · intro h
    obtain ⟨r, hr, hw⟩ := h
    obtain ⟨x, v, rfl, hx, hv⟩ := NondetGraph.path_glued_target.mp hw
    rcases SortedSet.mem_insert.mp hr with rfl | hr
    · exact ⟨x, hx, v, hv, rfl⟩
    -- a run that stops at a final state of the operand stops after one more round
    · have hv : v ∈ a.graph.rounds a.finals p := ⟨r, hr, hv⟩
      refine ⟨x ++ v, NondetGraph.append_mem_kstar hx (NondetGraph.mem_kstar_of_mem hv), [], ?_, by simp⟩
      exact .nil p
  · intro h
    obtain ⟨x, hx, v, hv, hw⟩ := h
    refine ⟨p, SortedSet.mem_insert.mpr (.inl rfl), ?_⟩
    exact NondetGraph.path_glued_target.mpr ⟨x, v, hw.symm, hx, hv⟩

theorem mem_language_starred (h : a.Valid) (ht : a.options.trailing = .follow) (hp : a.initial = some p) :
    w ∈ (a.starred p).language ↔ w ∈ a.language∗ * a.returns p := by
  have ho : (a.starred p).options.trailing = .follow := ht
  rw [mem_language (h.starred hp), ho, spells_starred, language_eq_rounds h ht hp]

theorem nil_mem_language_starred (h : a.Valid) (ht : a.options.trailing = .follow) (hp : a.initial = some p) :
    [] ∈ (a.starred p).language := by
  rw [mem_language_starred h ht hp]
  exact Language.append_mem_mul (Language.nil_mem_kstar _) (NondetGraph.Path.nil p)

/-- A factor that contains the empty word adds nothing to a closure iff it lies within. -/
theorem kstar_mul_eq_kstar_iff {l m : Language Char} (hm : [] ∈ m) :
    (∀ w, w ∈ l∗ * m ↔ w ∈ l∗) ↔ ∀ w ∈ m, w ∈ l∗ := by
  constructor
  · intro h w hw
    exact (h w).mp (Language.append_mem_mul (Language.nil_mem_kstar l) hw)
  · intro h w
    constructor
    · intro hw
      obtain ⟨x, hx, v, hv, rfl⟩ := Language.mem_mul.mp hw
      exact NondetGraph.append_mem_kstar hx (h v hv)
    · intro hw
      simpa using Language.append_mem_mul hw hm

theorem star_accepts_kstar_iff {a : Automaton} (hv : a.validate = .ok ()) (ht : a.options.trailing = .follow) :
    ∃ p s, a.initial = some p ∧ a.star = .ok s ∧ s.validate = .ok () ∧
      (∀ w ∈ a.language∗, s.accepts w = .ok true) ∧
      ((∀ w, s.accepts w = .ok true ↔ w ∈ a.language∗) ↔ ∀ w, a.graph.Path p w p → w ∈ a.language∗) := by
  have h := validate_eq_ok.mp hv
  obtain ⟨p, hp, _⟩ := h.exists_initial
  have hs : ∀ w, (a.starred p).accepts w = .ok true ↔ w ∈ a.language∗ * a.returns p :=
    fun w => mem_language_starred h ht hp
  have hn : [] ∈ a.returns p := .nil p
  refine ⟨p, a.starred p, hp, star_of_valid h hp, validate_eq_ok.mpr (h.starred hp), ?_, ?_⟩
  · intro w hw
    rw [hs]
    simpa using Language.append_mem_mul hw hn
  · simp only [hs]
    exact kstar_mul_eq_kstar_iff hn

theorem mem_kstar_mul_returns :
    w ∈ a.language∗ * a.returns p ↔
      ∃ (us : List (List Char)) (v : List Char),
        w = us.flatten ++ v ∧ (∀ u ∈ us, a.accepts u = .ok true) ∧ a.graph.Path p v p := by
  rw [Language.mem_mul]
  constructor
  · intro h
    obtain ⟨x, hx, v, hv, hw⟩ := h
    obtain ⟨us, rfl, hus⟩ := Language.mem_kstar.mp hx
    exact ⟨us, v, hw.symm, hus, hv⟩
  · intro h
    obtain ⟨us, v, hw, hus, hv⟩ := h
    exact ⟨us.flatten, Language.mem_kstar.mpr ⟨us, rfl, hus⟩, v, hv, hw.symm⟩

/-- The star accepts words of the automaton in sequence, followed by a word that leads from the initial state back to
it. -/
theorem star_accepts_iff_words_then_return {a : Automaton} (hv : a.validate = .ok ())
    (ht : a.options.trailing = .follow) :
    ∃ p s, a.initial = some p ∧ a.star = .ok s ∧ s.validate = .ok () ∧
      (∀ w, s.accepts w = .ok true ↔ ∃ (us : List (List Char)) (v : List Char),
        w = us.flatten ++ v ∧ (∀ u ∈ us, a.accepts u = .ok true) ∧ a.graph.Path p v p) ∧
      (∀ us : List (List Char), (∀ u ∈ us, a.accepts u = .ok true) → s.accepts us.flatten = .ok true) ∧
      (s.language = a.language∗ ↔
        ∀ v, a.graph.Path p v p →
          ∃ us : List (List Char), v = us.flatten ∧ ∀ u ∈ us, a.accepts u = .ok true) := by
  have h := validate_eq_ok.mp hv
  obtain ⟨p, hp, _⟩ := h.exists_initial
  have hs : ∀ w, w ∈ (a.starred p).language ↔ w ∈ a.language∗ * a.returns p :=
    fun w => mem_language_starred h ht hp
  have hn : [] ∈ a.returns p := .nil p
  refine ⟨p, a.starred p, hp, star_of_valid h hp, validate_eq_ok.mpr (h.starred hp), ?_, ?_, ?_⟩
  · intro w
    exact (hs w).trans mem_kstar_mul_returns
  · intro us hus
    exact (hs _).mpr (mem_kstar_mul_returns.mpr ⟨us, [], by simp, hus, .nil p⟩)
  · have hset : (a.starred p).language = a.language∗ ↔ ∀ v ∈ a.returns p, v ∈ a.language∗ := by
      rw [← kstar_mul_eq_kstar_iff hn, Language.ext_iff]
      exact forall_congr' fun w => by rw [hs w]
    rw [hset]
    exact forall₂_congr fun v _ => Language.mem_kstar

/-- Reads `x` over and over at its initial state, then `y` and no more. -/
def xsThenY : Automaton :=
  ofTable (.nondet ⟨.ofList [⟨0⟩, ⟨1⟩], .ofList [⟨⟨0⟩, .char 'x', ⟨0⟩⟩, ⟨⟨0⟩, .char 'y', ⟨1⟩⟩]⟩) (some ⟨0⟩)
    (.singleton ⟨1⟩)

theorem star_accepts_kstar_iff_xsThenY :
    xsThenY.validate = .ok () ∧ xsThenY.options.trailing = .follow ∧
      ∃ p s, xsThenY.initial = some p ∧ xsThenY.star = .ok s ∧ s.validate = .ok () ∧
        (∀ w ∈ xsThenY.language∗, s.accepts w = .ok true) ∧
        ((∀ w, s.accepts w = .ok true ↔ w ∈ xsThenY.language∗) ↔
          ∀ w, xsThenY.graph.Path p w p → w ∈ xsThenY.language∗) :=
  ⟨rfl, rfl, star_accepts_kstar_iff rfl rfl⟩

theorem star_accepts_iff_words_then_return_xsThenY :
    xsThenY.validate = .ok () ∧ xsThenY.options.trailing = .follow ∧
      ∃ p s, xsThenY.initial = some p ∧ xsThenY.star = .ok s ∧ s.validate = .ok () ∧
        (∀ w, s.accepts w = .ok true ↔ ∃ (us : List (List Char)) (v : List Char),
          w = us.flatten ++ v ∧ (∀ u ∈ us, xsThenY.accepts u = .ok true) ∧ xsThenY.graph.Path p v p) ∧
        (∀ us : List (List Char), (∀ u ∈ us, xsThenY.accepts u = .ok true) → s.accepts us.flatten = .ok true) ∧
        (s.language = xsThenY.language∗ ↔
          ∀ v, xsThenY.graph.Path p v p →
            ∃ us : List (List Char), v = us.flatten ∧ ∀ u ∈ us, xsThenY.accepts u = .ok true) :=
  ⟨rfl, rfl, star_accepts_iff_words_then_return rfl rfl⟩

/-- The star of `x*y` accepts `x`, which is no sequence of words of `x*y`. -/
theorem star_xsThenY_accepts_x :
    xsThenY.validate = .ok () ∧ xsThenY.options.trailing = .follow ∧
      ∃ s, xsThenY.star = .ok s ∧ s.accepts ['x'] = .ok true ∧ ['x'] ∉ xsThenY.language∗ := by
  refine ⟨rfl, rfl, _, rfl, rfl, ?_⟩
  intro hx
  obtain ⟨L, hL, hw⟩ := Language.mem_kstar_iff_exists_nonempty.mp hx
  cases L with
  | nil => cases hL
  | cons u L =>
    obtain ⟨hu, hne⟩ := hw u (List.mem_cons_self ..)
    obtain ⟨c, u, rfl⟩ := List.exists_cons_of_ne_nil hne
    rw [List.flatten_cons, List.cons_append, List.cons.injEq] at hL
    obtain ⟨rfl, hL⟩ := hL
    obtain ⟨rfl, _⟩ := List.append_eq_nil_iff.mp hL.symm
    have hn : xsThenY.accepts ['x'] = .ok false := rfl
    have hu : xsThenY.accepts ['x'] = .ok true := hu
    rw [hn] at hu
    cases hu

end Automata.Automaton
