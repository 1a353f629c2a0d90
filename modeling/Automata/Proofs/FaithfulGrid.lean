import Automata.Display.TransitionGrid
import Automata.Proofs.WellFormedness

/-!
# What a transition grid tells

The kind of the table must be known, since one target is written without braces in a
deterministic table, and no edge may be on `ε`, whose column is headed like that of epsilon.
-/

namespace Automata

section
variable {α β : Type} {f g : α → β}

theorem eq_of_map_eq_map : ∀ {l m : List α}, (∀ a ∈ l, ∀ b ∈ m, f a = g b → a = b) → l.map f = m.map g → l = m
  | [], [], _, _ => rfl
  | a :: l, b :: m, hinj, h => by
    simp only [List.map_cons, List.cons.injEq] at h
    have hl : ∀ a ∈ l, ∀ b ∈ m, f a = g b → a = b := fun a ha b hb => hinj a (.tail _ ha) b (.tail _ hb)
    rw [hinj a (.head _) b (.head _) h.1, eq_of_map_eq_map hl h.2]

theorem map_eq_map_iff_of_inj {l m : List α} (hinj : ∀ a ∈ l, ∀ b ∈ m, f a = g b → a = b) :
    l.map f = m.map g ↔ l = m ∧ ∀ a ∈ l, f a = g a := by
  constructor
  · intro h
    obtain rfl := eq_of_map_eq_map hinj h
    exact ⟨rfl, List.map_eq_map_iff.mp h⟩
  · intro ⟨e, h⟩
    subst e
    exact List.map_eq_map_iff.mpr h

end

section
variable {c : Char} {sep u v s t : List Char}

theorem append_cons_inj (hu : c ∉ u) (hv : c ∉ v) (h : u ++ c :: s = v ++ c :: t) : u = v ∧ s = t := by
  rcases List.append_eq_append_iff.mp h with ⟨w, rfl, hw⟩ | ⟨w, rfl, hw⟩
  all_goals
    cases w with
    | nil => simpa [eq_comm] using hw
    | cons d w =>
      obtain rfl : c = d := (List.cons.inj hw).1
      simp at hu hv

/-- What is separated by a text that begins with a character that it lacks can be read back. -/
theorem intercalate_inj : ∀ {l m : List (List Char)}, (∀ w ∈ l, c ∉ w) → (∀ w ∈ m, c ∉ w) → l ≠ [] → m ≠ [] →
    (c :: sep).intercalate l = (c :: sep).intercalate m → l = m
  | [], _, _, _, hl, _, _ => absurd rfl hl
  | _ :: _, [], _, _, _, hm, _ => absurd rfl hm
  | [u], [v], _, _, _, _, h => by simpa using h
  | [u], v :: v' :: m, hu, _, _, _, h => by
    have hc : c ∉ u := hu u (.head _)
    simp [show u = _ by simpa using h] at hc
  | u :: u' :: l, [v], _, hv, _, _, h => by
    have hc : c ∉ v := hv v (.head _)
    simp [show v = _ by simpa using h.symm] at hc
  | u :: u' :: l, v :: v' :: m, hu, hv, _, _, h => by
    simp only [List.intercalate_cons_cons, List.append_assoc, List.cons_append] at h
    obtain ⟨huv, h⟩ := append_cons_inj (hu u (.head _)) (hv v (.head _)) h
    rw [huv, intercalate_inj (fun w hw => hu w (.tail _ hw)) (fun w hw => hv w (.tail _ hw)) nofun nofun
      (List.append_cancel_left h)]

end

/-! ## States and sets of states -/

namespace State

variable {p q : State} {c : Char}

theorem toList_text : q.text.toList = 'q' :: Nat.toDigits 10 q.ordinal.toNat := by
  simp [text, Nat.toList_repr]

theorem text_inj : p.text = q.text ↔ p = q := by
  refine ⟨fun h => ?_, congrArg text⟩
  have h := congrArg String.toList h
  rw [toList_text, toList_text, List.cons.injEq] at h
  have h := congrArg (Nat.ofDigitChars 10 · 0) h.2
  simpa [ordinal_inj, UInt32.toNat_inj] using h

theorem not_mem_text (hq : c ≠ 'q') (hd : c.isDigit = false) : c ∉ q.text.toList := by
  rw [toList_text, List.mem_cons]
  intro h
  rcases h with h | h
  · exact hq h
  · rw [Nat.isDigit_of_mem_toDigits (by decide) (by decide) h] at hd
    cases hd

theorem intercalate_text_inj {l m : List State} (hl : l ≠ []) (hm : m ≠ [])
    (h : [',', ' '].intercalate (l.map (·.text.toList)) = [',', ' '].intercalate (m.map (·.text.toList))) :
    l = m := by
  have hcomma : ∀ l : List State, ∀ w ∈ l.map (·.text.toList), ',' ∉ w := by
    intro l w hw
    obtain ⟨q, _, rfl⟩ := List.mem_map.mp hw
    exact not_mem_text (by decide) (by decide)
  have hne : ∀ {l : List State}, l ≠ [] → l.map (·.text.toList) ≠ [] := mt List.map_eq_nil_iff.mp
  have h := intercalate_inj (hcomma l) (hcomma m) (hne hl) (hne hm) h
  exact eq_of_map_eq_map (fun p _ q _ hpq => text_inj.mp (String.toList_inj.mp hpq)) h

end State

namespace StateSet

variable {s t : StateSet}

theorem eq_of_isEmpty (hs : s.isEmpty) (ht : t.isEmpty) : s = t :=
  SortedSet.toList_inj.mp ((List.isEmpty_iff.mp hs).trans (List.isEmpty_iff.mp ht).symm)

theorem toList_text (hs : s.isEmpty = false) :
    s.text.toList = '\x7b' :: ([',', ' '].intercalate (s.toList.map (·.text.toList)) ++ ['\x7d']) := by
  simp [text, hs, Function.comp_def]

theorem head?_text : s.text.toList.head? = some (if s.isEmpty then '∅' else '\x7b') := by
  cases hs : s.isEmpty with
  | true => simp [text, hs]
  | false => simp [toList_text hs]

theorem text_ne_dash : s.text ≠ "-" := by
  intro h
  have h := congrArg (·.toList.head?) h
  rw [head?_text] at h
  revert h
  cases s.isEmpty <;> decide

theorem text_inj : s.text = t.text ↔ s = t := by
  refine ⟨fun h => ?_, congrArg text⟩
  have he : s.isEmpty = t.isEmpty := by
    have h := congrArg (·.toList.head?) h
    rw [head?_text, head?_text] at h
    revert h
    cases s.isEmpty <;> cases t.isEmpty <;> decide
  cases hs : s.isEmpty with
  | true => exact eq_of_isEmpty hs (he ▸ hs)
  | false =>
    have ht : t.isEmpty = false := he ▸ hs
    have h := congrArg String.toList h
    rw [toList_text hs, toList_text ht, List.cons.injEq] at h
    refine SortedSet.toList_inj.mp (State.intercalate_text_inj ?_ ?_ (List.append_cancel_right h.2))
    · simpa [SortedSet.isEmpty] using hs
    · simpa [SortedSet.isEmpty] using ht

end StateSet

/-! ## Escape sequences -/

namespace Display

/-- What a terminal is sent before and after a text in bold or in green. -/
structure Escapes where
  boldOn : String
  boldOff : String
  greenOn : String
  greenOff : String

def Escapes.ansi : Escapes := ⟨"\x1b[1m", "\x1b[0m", "\x1b[32m", "\x1b[39m"⟩

def Cell.textIn (x : Escapes) (c : Cell) : String :=
  match c.style with
  | .plain => c.text
  | .bold => x.boldOn ++ c.text ++ x.boldOff
  | .green => x.greenOn ++ c.text ++ x.greenOff

theorem Cell.textIn_ansi (c : Cell) : c.textIn .ansi = c.ansi := by
  obtain ⟨style, text⟩ := c
  cases style <;> rfl

def Grid.textsIn (x : Escapes) (g : Grid) : List (List String) := (g.header :: g.rows).map (·.map (Cell.textIn x))

theorem Grid.textsIn_ansi (g : Grid) : g.textsIn .ansi = g.texts := by
  unfold textsIn texts
  rw [funext Cell.textIn_ansi]

variable {x : Escapes} {t u : String}

theorem Cell.textIn_bold_inj : Cell.textIn x ⟨.bold, t⟩ = Cell.textIn x ⟨.bold, u⟩ ↔ t = u := by
  simp only [textIn, String.append_left_inj, String.append_right_inj]

theorem Cell.textIn_green_inj : Cell.textIn x ⟨.green, t⟩ = Cell.textIn x ⟨.green, u⟩ ↔ t = u := by
  simp only [textIn, String.append_left_inj, String.append_right_inj]

end Display

namespace Symbol

theorem text_eq_singleton : ∀ x : Symbol, x.text = String.singleton (x.char?.getD 'ε')
  | epsilon => rfl
  | char _ => Char.toString_eq_singleton

theorem text_inj {x y : Symbol} (hx : x ≠ .char 'ε') (hy : y ≠ .char 'ε') (h : x.text = y.text) : x = y := by
  rw [text_eq_singleton, text_eq_singleton, String.singleton_inj] at h
  cases x with
  | epsilon =>
    cases y with
    | epsilon => rfl
    | char d => exact absurd (congrArg char h.symm) hy
  | char c =>
    cases y with
    | epsilon => exact absurd (congrArg char h) hx
    | char d => exact congrArg char h

end Symbol

theorem NondetGraph.hasEpsilon_iff {g : NondetGraph} : g.hasEpsilon ↔ ∃ p q, ⟨p, .epsilon, q⟩ ∈ g.edges := by
  rw [hasEpsilon, List.any_eq_true]
  constructor
  · intro h
    obtain ⟨⟨p, y, q⟩, he, hy⟩ := h
    cases y with
    | epsilon => exact ⟨p, q, he⟩
    | char c => cases hy
  · intro h
    obtain ⟨p, q, he⟩ := h
    exact ⟨_, he, rfl⟩

namespace Automaton

open Display

variable {a b : Automaton} {p q : State} {y : Symbol} {x : Escapes}

theorem mem_columns : y ∈ a.columns ↔ ∃ p q, ⟨p, y, q⟩ ∈ a.graph.edges := by
  rw [columns, List.mem_append]
  cases y with
  | char c =>
    rw [← mem_symbols, ← SortedSet.mem_toList]
    split <;> simp
  | epsilon =>
    rw [← NondetGraph.hasEpsilon_iff]
    split <;> simp [*]

theorem columns_congr (h : a.graph.edges = b.graph.edges) : a.columns = b.columns := by
  have hs : a.symbols = b.symbols := SortedSet.ext fun c => by rw [mem_symbols, mem_symbols, h]
  rw [columns, columns, hs, NondetGraph.hasEpsilon, NondetGraph.hasEpsilon, h]

/-! ## Cells -/

section
variable {i j : Prop} [Decidable i] [Decidable j]

theorem label_inj : (if i then "→" else "") ++ p.text = (if j then "→" else "") ++ q.text ↔ p = q ∧ (i ↔ j) := by
  have harrow : ∀ p q : State, "→" ++ p.text ≠ q.text := by
    intro p q h
    have h := congrArg String.toList h
    rw [String.toList_append, State.toList_text, State.toList_text] at h
    cases (List.cons.inj h).1
  by_cases hi : i <;> by_cases hj : j
  · simp [hi, hj, State.text_inj]
  · simp [hi, hj, harrow]
  · simp [hi, hj, (harrow _ _).symm]
  · simp [hi, hj, State.text_inj]

theorem star_not_mem_label : '*' ∉ ((if i then "→" else "") ++ q.text).toList := by
  rw [String.toList_append, List.mem_append]
  intro h
  rcases h with h | h
  · split at h <;> simp at h
  · exact State.not_mem_text (by decide) (by decide) h

end

theorem textIn_stateCell_inj : (a.stateCell p).textIn x = (b.stateCell q).textIn x ↔
    p = q ∧ (a.initial = some p ↔ b.initial = some q) ∧ (p ∈ a.finals ↔ q ∈ b.finals) := by
  -- the star stands in the text, so that no escape sequence can stand for it
  have hstar : ∀ {t u : String}, '*' ∉ u.toList → Cell.textIn x ⟨.green, t ++ "*"⟩ ≠ Cell.textIn x ⟨.plain, u⟩ := by
    intro t u hu h
    have h : Cell.textIn x ⟨.green, t ++ "*"⟩ = u := h
    apply hu
    rw [← h]
    simp [Cell.textIn]
  unfold stateCell
  by_cases hp : p ∈ a.finals <;> by_cases hq : q ∈ b.finals
  · simp only [hp, hq, if_true, Cell.textIn_green_inj, String.append_left_inj, label_inj, iff_self, and_true]
  · simp only [hp, hq, if_true, if_false, iff_false, not_true, and_false]
    exact hstar star_not_mem_label
  · simp only [hp, hq, if_true, if_false, iff_true, and_false, iff_false]
    exact (hstar star_not_mem_label).symm
  · simp only [hp, hq, if_false, Cell.textIn, label_inj, iff_self, and_true]

theorem target?_text_inj {o o' : Option State} :
    (o.map State.text).getD "-" = (o'.map State.text).getD "-" ↔ o = o' := by
  have hdash : ∀ q : State, q.text ≠ "-" := by
    intro q h
    have h := congrArg String.toList h
    rw [State.toList_text] at h
    cases (List.cons.inj h).1
  cases o <;> cases o' <;> simp [State.text_inj, hdash, (hdash _).symm]

theorem targets_text_inj {s t : StateSet} :
    (if s.isEmpty then "-" else s.text) = (if t.isEmpty then "-" else t.text) ↔ s = t := by
  have hempty : ∀ {s t : StateSet}, s.isEmpty → ¬ t.isEmpty → s ≠ t := fun hs ht e => ht (e ▸ hs)
  by_cases hs : s.isEmpty <;> by_cases ht : t.isEmpty
  · rw [if_pos hs, if_pos ht]
    exact iff_of_true rfl (StateSet.eq_of_isEmpty hs ht)
  · rw [if_pos hs, if_neg ht]
    exact iff_of_false StateSet.text_ne_dash.symm (hempty hs ht)
  · rw [if_neg hs, if_pos ht]
    exact iff_of_false StateSet.text_ne_dash (hempty ht hs).symm
  · rw [if_neg hs, if_neg ht]
    exact StateSet.text_inj

theorem targetText_eq_iff (hk : a.table.isDet = b.table.isDet) :
    a.targetText q y = b.targetText q y ↔ ∀ r, ⟨q, y, r⟩ ∈ a.graph.edges ↔ ⟨q, y, r⟩ ∈ b.graph.edges := by
  have hdet : ∀ {g : DetGraph} {r : State}, y.char?.bind (g.target? q) = some r ↔ ⟨q, y, r⟩ ∈ g.toNondet.edges := by
    intro g r
    simp only [Option.bind_eq_some_iff, DetGraph.target?_eq_some, DetGraph.mem_edges_toNondet]
    cases y <;> simp [Symbol.char?]
  unfold targetText graph
  cases ha : a.table with
  | det g =>
    cases hb : b.table with
    | det h =>
      rw [target?_text_inj, Option.ext_iff]
      simp only [hdet, Table.toNondet]
    | nondet h => simp [ha, hb, Table.isDet] at hk
  | nondet g =>
    cases hb : b.table with
    | det h => simp [ha, hb, Table.isDet] at hk
    | nondet h =>
      rw [targets_text_inj]
      refine ⟨fun e r => ?_, fun e => SortedSet.ext fun r => ?_⟩
      · rw [Table.toNondet, Table.toNondet, ← Graph.mem_targets, e, Graph.mem_targets]
      · rw [Graph.mem_targets, Graph.mem_targets]
        exact e r

/-! ## The whole grid -/

theorem textsIn_grid : a.grid.textsIn x =
    (Cell.textIn x ⟨.bold, "State"⟩ :: a.columns.map fun y => Cell.textIn x ⟨.bold, y.text⟩) ::
      a.states.toList.map fun q => (a.stateCell q).textIn x :: a.columns.map (a.targetText q) := by
  simp [Grid.textsIn, grid, Function.comp_def, Cell.textIn]

structure SameCells (a b : Automaton) : Prop where
  columns : a.columns = b.columns
  states : a.states = b.states
  initial : ∀ q ∈ a.states, a.initial = some q ↔ b.initial = some q
  finals : ∀ q ∈ a.states, q ∈ a.finals ↔ q ∈ b.finals
  targets : ∀ q ∈ a.states, ∀ y ∈ a.columns, a.targetText q y = b.targetText q y

section
variable (hε : ∀ e ∈ a.edges, e.label ≠ .char 'ε') (hε' : ∀ e ∈ b.edges, e.label ≠ .char 'ε')
include hε hε'

theorem textIn_columns_inj : (a.columns.map fun y => Cell.textIn x ⟨.bold, y.text⟩) =
    (b.columns.map fun y => Cell.textIn x ⟨.bold, y.text⟩) ↔ a.columns = b.columns := by
  have hlabel : ∀ {a : Automaton}, (∀ e ∈ a.edges, e.label ≠ .char 'ε') → ∀ y ∈ a.columns, y ≠ .char 'ε' := by
    intro a hε y hy
    obtain ⟨p, q, he⟩ := mem_columns.mp hy
    exact hε _ he
  refine ⟨eq_of_map_eq_map fun y hy z hz h => ?_, fun h => by rw [h]⟩
  exact Symbol.text_inj (hlabel hε y hy) (hlabel hε' z hz) (Cell.textIn_bold_inj.mp h)

theorem textsIn_grid_eq_iff : a.grid.textsIn x = b.grid.textsIn x ↔ a.SameCells b := by
  rw [textsIn_grid, textsIn_grid, List.cons.injEq, List.cons.injEq, eq_self_iff_true, true_and,
    textIn_columns_inj hε hε', map_eq_map_iff_of_inj fun p _ q _ h => (textIn_stateCell_inj.mp (List.cons.inj h).1).1]
  simp only [List.cons.injEq, textIn_stateCell_inj, true_and]
  constructor
  · intro ⟨hc, hs, hrow⟩
    rw [← hc] at hrow
    exact ⟨hc, SortedSet.toList_inj.mp hs, fun q hq => (hrow q hq).1.1, fun q hq => (hrow q hq).1.2, fun q hq =>
      List.map_inj_left.mp (hrow q hq).2⟩
  · intro h
    refine ⟨h.columns, SortedSet.toList_inj.mpr h.states, fun q hq => ⟨⟨h.initial q hq, h.finals q hq⟩, ?_⟩⟩
    rw [← h.columns]
    exact List.map_inj_left.mpr (h.targets q hq)

end

/-- Whether options are alike is left open: no grid shows them. -/
structure Alike (a b : Automaton) : Prop where
  states : a.states = b.states
  edges : a.edges = b.edges
  initial : a.initial = b.initial
  finals : a.finals = b.finals

theorem Alike.sameCells (h : a.Alike b) (hk : a.table.isDet = b.table.isDet) : a.SameCells b := by
  have he : a.graph.edges = b.graph.edges := h.edges
  refine ⟨columns_congr he, h.states, fun q _ => ?_, fun q _ => ?_, fun q _ y _ => ?_⟩
  · rw [h.initial]
  · rw [h.finals]
  · rw [targetText_eq_iff hk, he]
    exact fun _ => Iff.rfl

theorem SameCells.alike (h : a.SameCells b) (hk : a.table.isDet = b.table.isDet) (ha : a.WellFormed)
    (hb : b.WellFormed) : a.Alike b := by
  refine ⟨h.states, SortedSet.ext fun e => ?_, Option.ext fun q => ?_, SortedSet.ext fun q => ?_⟩
  · obtain ⟨p, y, r⟩ := e
    have htarget : p ∈ a.states → y ∈ a.columns → (⟨p, y, r⟩ ∈ a.graph.edges ↔ ⟨p, y, r⟩ ∈ b.graph.edges) :=
      fun hp hy => (targetText_eq_iff hk).mp (h.targets p hp y hy) r
    constructor
    · intro he
      have hp : p ∈ a.graph.states := (ha.closed _ he).1
      rw [states_graph] at hp
      exact (htarget hp (mem_columns.mpr ⟨p, r, he⟩)).mp he
    · intro he
      have hp : p ∈ b.graph.states := (hb.closed _ he).1
      rw [states_graph, ← h.states] at hp
      exact (htarget hp (h.columns ▸ mem_columns.mpr ⟨p, r, he⟩)).mpr he
  · exact ⟨fun hq => (h.initial q (ha.initial hq)).mp hq, fun hq => (h.initial q (h.states ▸ hb.initial hq)).mpr hq⟩
  · exact ⟨fun hq => (h.finals q (ha.final hq)).mp hq, fun hq => (h.finals q (h.states ▸ hb.final hq)).mpr hq⟩

/-- In whatever escape sequences, two grids have the same texts just if the automata have the same states, edges,
initial state and final states. -/
theorem texts_grid_eq_iff_alike (hk : a.table.isDet = b.table.isDet) (ha : a.WellFormed) (hb : b.WellFormed)
    (hε : ∀ e ∈ a.edges, e.label ≠ .char 'ε') (hε' : ∀ e ∈ b.edges, e.label ≠ .char 'ε') :
    (∀ x : Escapes, a.grid.textsIn x = b.grid.textsIn x ↔ a.Alike b) ∧ (a.grid.texts = b.grid.texts ↔ a.Alike b) := by
  have h : ∀ x : Escapes, a.grid.textsIn x = b.grid.textsIn x ↔ a.Alike b := fun x =>
    (textsIn_grid_eq_iff hε hε').trans ⟨fun h => h.alike hk ha hb, fun h => h.sameCells hk⟩
  refine ⟨h, ?_⟩
  rw [← Grid.textsIn_ansi, ← Grid.textsIn_ansi]
  exact h .ansi

def oneEdge (y : Symbol) : Automaton :=
  ofTable (.nondet ⟨.ofList [⟨0⟩, ⟨1⟩], .ofList [⟨⟨0⟩, y, ⟨1⟩⟩]⟩) (some ⟨0⟩) (.singleton ⟨1⟩)

theorem texts_grid_eq_iff_alike_oneEdge :
    ((oneEdge (.char 'x')).table.isDet = (oneEdge .epsilon).table.isDet ∧
      (oneEdge (.char 'x')).WellFormed ∧ (oneEdge .epsilon).WellFormed ∧
      (∀ e ∈ (oneEdge (.char 'x')).edges, e.label ≠ .char 'ε') ∧ ∀ e ∈ (oneEdge .epsilon).edges, e.label ≠ .char 'ε') ∧
    (∀ x : Escapes, (oneEdge (.char 'x')).grid.textsIn x ≠ (oneEdge .epsilon).grid.textsIn x) ∧
      (oneEdge (.char 'x')).grid.texts ≠ (oneEdge .epsilon).grid.texts := by
  have hx : (oneEdge (.char 'x')).WellFormed := (validate_eq_ok.mp rfl).wellFormed
  have hepsilon : (oneEdge .epsilon).WellFormed := (validate_eq_ok.mp rfl).wellFormed
  have hlx : ∀ e ∈ (oneEdge (.char 'x')).edges, e.label ≠ .char 'ε' := by decide
  have hlepsilon : ∀ e ∈ (oneEdge .epsilon).edges, e.label ≠ .char 'ε' := by decide
  have hne : ¬ (oneEdge (.char 'x')).Alike (oneEdge .epsilon) := fun h => absurd h.edges (by decide)
  have hk : (oneEdge (.char 'x')).table.isDet = (oneEdge .epsilon).table.isDet := rfl
  obtain ⟨hin, htexts⟩ := texts_grid_eq_iff_alike hk hx hepsilon hlx hlepsilon
  exact ⟨⟨hk, hx, hepsilon, hlx, hlepsilon⟩, fun x h => hne ((hin x).mp h), fun h => hne (htexts.mp h)⟩

/-- The letter `ε` has to be kept out. -/
example : (oneEdge (.char 'ε')).grid = (oneEdge .epsilon).grid := by decide

end Automaton

end Automata
