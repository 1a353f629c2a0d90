import Automata.Search
import Mathlib.Data.List.Shortlex

/-!
# The order of discovery

A breadth-first search that tries the letters in ascending order discovers the nodes in
the order of their first words: a first word without its last letter is a first word too.
-/

namespace Automata

variable {α L : Type} [LinearOrder L] {u v w : List L} {b c : L}

theorem lex_concat_iff : ∀ {u v : List L}, u.length = v.length →
    (List.Lex (· < ·) (u ++ [b]) (v ++ [c]) ↔ List.Lex (· < ·) u v ∨ u = v ∧ b < c)
  | [], [], _ => by simp
  | x :: u, y :: v, h => by
    have ih : List.Lex (· < ·) (u ++ [b]) (v ++ [c]) ↔ List.Lex (· < ·) u v ∨ u = v ∧ b < c :=
      lex_concat_iff (Nat.succ.inj h)
    rw [List.cons_append, List.cons_append, List.cons_lex_cons_iff, List.cons_lex_cons_iff, ih, List.cons.injEq,
      and_or_left, or_assoc, and_assoc]

theorem shortlex_concat_iff :
    List.Shortlex (· < ·) (u ++ [b]) (v ++ [c]) ↔ List.Shortlex (· < ·) u v ∨ u = v ∧ b < c := by
  rw [List.shortlex_def, List.shortlex_def, List.length_append, List.length_append, List.length_singleton,
    List.length_singleton]
  rcases Nat.lt_trichotomy u.length v.length with h | h | h
  · simp [h]
  · rw [lex_concat_iff h]
    simp [h]
  · have hne : u ≠ v := fun e => by simp [e] at h
    have hlt : ¬ u.length < v.length := by omega
    have heq : u.length ≠ v.length := by omega
    simp [hne, hlt, heq]

theorem shortlex_irrefl : ¬ List.Shortlex (· < ·) w w := Std.Irrefl.irrefl w

theorem shortlex_asymm (h : List.Shortlex (· < ·) u v) : ¬ List.Shortlex (· < ·) v u := Std.Asymm.asymm _ _ h

theorem shortlex_trichotomy (u v : List L) : List.Shortlex (· < ·) u v ∨ u = v ∨ List.Shortlex (· < ·) v u := by
  by_contra h
  simp only [not_or] at h
  exact h.2.1 (Std.Trichotomous.trichotomous u v h.1 h.2.2)

namespace Search

/-! ## First words -/

section
variable (step : α → L → α) (letters : List L) (start : α)

/-- The word over the letters leads from the start to the node. -/
def Reads (w : List L) (x : α) : Prop := (∀ c ∈ w, c ∈ letters) ∧ w.foldl step start = x

structure FirstWord (w : List L) (x : α) : Prop where
  reads : Reads step letters start w x
  least : ∀ v, Reads step letters start v x → w = v ∨ List.Shortlex (· < ·) w v

/-- The first word of the one node goes before the first word of the other. -/
def Before (x y : α) : Prop :=
  ∃ u v, FirstWord step letters start u x ∧ FirstWord step letters start v y ∧ List.Shortlex (· < ·) u v

end

variable {step : α → L → α} {letters : List L} {start x y z : α}

omit [LinearOrder L] in
theorem reads_concat : Reads step letters start (w ++ [c]) x ↔
    Reads step letters start w (w.foldl step start) ∧ c ∈ letters ∧ step (w.foldl step start) c = x := by
  unfold Reads
  rw [List.foldl_append]
  simp only [List.mem_append, List.mem_singleton, or_imp, forall_and, forall_eq, and_true, and_assoc]
  rfl

namespace FirstWord

theorem exists_of_reads [WellFoundedLT L] (h : Reads step letters start w x) :
    ∃ v, FirstWord step letters start v x := by
  have hwf : WellFounded (List.Shortlex (· < · : L → L → Prop)) := List.Shortlex.wf wellFounded_lt
  obtain ⟨v, hv, hmin⟩ := hwf.has_min {v | Reads step letters start v x} ⟨w, h⟩
  refine ⟨v, hv, fun u hu => ?_⟩
  rcases shortlex_trichotomy v u with hlt | e | hgt
  · exact .inr hlt
  · exact .inl e
  · exact absurd hgt (hmin u hu)

theorem unique (h : FirstWord step letters start u x) (h' : FirstWord step letters start v x) : u = v := by
  rcases h.least v h'.reads with e | hlt
  · exact e
  rcases h'.least u h.reads with e | hgt
  · exact e.symm
  · exact absurd hgt (shortlex_asymm hlt)

theorem nil : FirstWord step letters start [] start where
  reads := ⟨nofun, rfl⟩
  least v _ := (List.shortlex_nil_or_eq_nil v).symm.imp_left Eq.symm

/-- A first word without its last letter is a first word. -/
theorem init (h : FirstWord step letters start (u ++ [c]) x) :
    FirstWord step letters start u (u.foldl step start) where
  reads := (reads_concat.mp h.reads).1
  least v hv := by
    obtain ⟨_, hc, hx⟩ := reads_concat.mp h.reads
    have hvx : Reads step letters start (v ++ [c]) x := by
      rw [← hv.2] at hx
      exact reads_concat.mpr ⟨⟨hv.1, rfl⟩, hc, hx⟩
    rcases h.least _ hvx with e | hlt
    · exact .inl (List.append_cancel_right e)
    rcases shortlex_concat_iff.mp hlt with hlt | ⟨e, _⟩
    · exact .inr hlt
    · exact .inl e

theorem before_iff (hx : FirstWord step letters start u x) (hy : FirstWord step letters start v y) :
    Before step letters start x y ↔ List.Shortlex (· < ·) u v := by
  constructor
  · intro h
    obtain ⟨u', v', hu, hv, h⟩ := h
    rwa [hx.unique hu, hy.unique hv]
  · intro h
    exact ⟨u, v, hx, hy, h⟩

end FirstWord

namespace Before

theorem irrefl : ¬ Before step letters start x x := by
  intro h
  obtain ⟨u, v, hu, hv, h⟩ := h
  rw [hu.unique hv] at h
  exact shortlex_irrefl h

theorem asymm (h : Before step letters start x y) : ¬ Before step letters start y x := by
  obtain ⟨u, v, hu, hv, h⟩ := h
  rw [hv.before_iff hu]
  exact shortlex_asymm h

end Before

/-! ## What the search has found -/

variable (step letters start) in
/-- What is found are the first nodes, in order. -/
structure InOrder (found : List α) : Prop where
  start_mem : start ∈ found
  reached : ∀ x ∈ found, ∃ w, FirstWord step letters start w x
  ordered : found.Pairwise (Before step letters start)
  initial : ∀ y ∈ found, ∀ x, Before step letters start x y → x ∈ found

variable (step letters) in
def Expanded (found : List α) (x : α) : Prop := ∀ c ∈ letters, step x c ∈ found

variable {found : List α} {i : Nat}

omit [LinearOrder L] in
theorem Expanded.append {m : List α} (h : Expanded step letters found x) : Expanded step letters (found ++ m) x :=
  fun c hc => List.mem_append.mpr (.inl (h c hc))

theorem inOrder_start : InOrder step letters start [start] where
  start_mem := List.mem_singleton.mpr rfl
  reached x hx := by
    rw [List.mem_singleton.mp hx]
    exact ⟨[], .nil⟩
  ordered := List.pairwise_singleton ..
  initial y hy x h := by
    obtain ⟨u, v, _, hv, h⟩ := h
    rw [List.mem_singleton.mp hy] at hv
    rw [hv.unique .nil] at h
    exact absurd h List.not_shortlex_nil_right

namespace InOrder

variable (h : InOrder step letters start found)
include h

theorem mem_take (hi : found[i]? = some y) (hx : Before step letters start x y) : x ∈ found.take i := by
  obtain ⟨hlt, rfl⟩ := List.getElem?_eq_some_iff.mp hi
  have hsplit : found = found.take i ++ found[i] :: found.drop (i + 1) := by
    rw [← List.drop_eq_getElem_cons hlt, List.take_append_drop]
  have hord := h.ordered
  rw [hsplit, List.pairwise_append, List.pairwise_cons] at hord
  have hmem : x ∈ found := h.initial _ (List.getElem_mem hlt) x hx
  rw [hsplit, List.mem_append, List.mem_cons] at hmem
  rcases hmem with hmem | rfl | hmem
  · exact hmem
  · exact absurd hx Before.irrefl
  · exact absurd (hord.2.1.1 x hmem) hx.asymm

theorem before_of_notMem (hw : FirstWord step letters start w x) (hx : x ∉ found) (hz : z ∈ found) :
    Before step letters start z x := by
  obtain ⟨v, hv⟩ := h.reached z hz
  rcases shortlex_trichotomy v w with hlt | rfl | hgt
  · exact (hv.before_iff hw).mpr hlt
  · rw [← hw.reads.2, hv.reads.2] at hx
    exact absurd hz hx
  · exact absurd (h.initial z hz x ((hw.before_iff hv).mpr hgt)) hx

section
variable (hu : FirstWord step letters start u y)
  (hprev : ∀ z, Before step letters start z y → Expanded step letters found z)
  (hdone : ∀ b ∈ letters, b < c → step y b ∈ found)
include hu hprev hdone

/-- When the nodes before `y` are expanded, and `y` itself on the letters below `c`, then what has a word
below that of `y` followed by `c` is found. -/
theorem mem_of_shortlex (hw : FirstWord step letters start w x) (hlt : List.Shortlex (· < ·) w (u ++ [c])) :
    x ∈ found := by
  rcases List.eq_nil_or_concat w with rfl | ⟨v, b, rfl⟩
  · rw [← hw.reads.2]
    exact h.start_mem
  rw [List.concat_eq_append] at hw hlt
  obtain ⟨_, hb, rfl⟩ := reads_concat.mp hw.reads
  rcases shortlex_concat_iff.mp hlt with hvu | ⟨rfl, hbc⟩
  · exact hprev _ ((hw.init.before_iff hu).mpr hvu) b hb
  · rw [hu.reads.2]
    exact hdone b hb hbc

theorem firstWord_concat [WellFoundedLT L] (hc : c ∈ letters) (hx : step y c ∉ found) :
    FirstWord step letters start (u ++ [c]) (step y c) := by
  have hr : Reads step letters start (u ++ [c]) (step y c) :=
    reads_concat.mpr ⟨⟨hu.reads.1, rfl⟩, hc, by rw [hu.reads.2]⟩
  obtain ⟨w, hw⟩ := FirstWord.exists_of_reads hr
  rcases hw.least _ hr with rfl | hlt
  · exact hw
  · exact absurd (h.mem_of_shortlex hu hprev hdone hw hlt) hx

/-- If then `y` leads on `c` to what is not found yet, that is the next node. -/
theorem concat [WellFoundedLT L] (hc : c ∈ letters) (hx : step y c ∉ found) :
    InOrder step letters start (found ++ [step y c]) := by
  have hfirst := h.firstWord_concat hu hprev hdone hc hx
  refine ⟨List.mem_append.mpr (.inl h.start_mem), ?_, ?_, ?_⟩
  · intro z hz
    rcases List.mem_append.mp hz with hz | hz
    · exact h.reached z hz
    · rw [List.mem_singleton.mp hz]
      exact ⟨_, hfirst⟩
  · rw [List.pairwise_append]
    refine ⟨h.ordered, List.pairwise_singleton .., fun z hz z' hz' => ?_⟩
    rw [List.mem_singleton.mp hz']
    exact h.before_of_notMem hfirst hx hz
  · intro z hz z' hz'
    rw [List.mem_append]
    rcases List.mem_append.mp hz with hz | hz
    · exact .inl (h.initial z hz z' hz')
    · rw [List.mem_singleton.mp hz] at hz'
      obtain ⟨w, w', hw, hw', hlt⟩ := hz'
      rw [hw'.unique hfirst] at hlt
      exact .inl (h.mem_of_shortlex hu hprev hdone hw hlt)

end

end InOrder

variable [DecidableEq α] [WellFoundedLT L]

/-- The letters are tried one after the other; those in `done` have been. -/
theorem InOrder.extend (hletters : letters.Pairwise (· < ·)) (hu : FirstWord step letters start u y) :
    ∀ {todo done : List L} {found : List α}, letters = done ++ todo → InOrder step letters start found →
      (∀ z, Before step letters start z y → Expanded step letters found z) → (∀ b ∈ done, step y b ∈ found) →
      InOrder step letters start (extend found (todo.map (step y)))
  | [], _, _, _, h, _, _ => h
  | c :: todo, done, found, hl, h, hprev, hdone => by
    have hl' : letters = (done ++ [c]) ++ todo := by rw [hl, List.append_assoc, List.singleton_append]
    rw [List.map_cons, Search.extend]
    split <;> rename_i hx
    · refine InOrder.extend hletters hu hl' h hprev fun b hb => ?_
      rcases List.mem_append.mp hb with hb | hb
      · exact hdone b hb
      · rwa [List.mem_singleton.mp hb]
    have hbelow : ∀ b ∈ letters, b < c → step y b ∈ found := by
      intro b hb hbc
      rw [hl, List.pairwise_append, List.pairwise_cons] at hletters
      rw [hl, List.mem_append, List.mem_cons] at hb
      rcases hb with hb | rfl | hb
      · exact hdone b hb
      · exact absurd hbc (lt_irrefl b)
      · exact absurd hbc (hletters.2.1.1 b hb).asymm
    have hc : c ∈ letters := by
      rw [hl]
      exact List.mem_append.mpr (.inr (List.mem_cons_self ..))
    refine InOrder.extend hletters hu hl' (h.concat hu hprev hbelow hc hx) (fun z hz => (hprev z hz).append) ?_
    intro b hb
    rw [List.mem_append]
    rcases List.mem_append.mp hb with hb | hb
    · exact .inl (hdone b hb)
    · rw [List.mem_singleton.mp hb]
      exact .inr (List.mem_singleton.mpr rfl)

theorem InOrder.expand (hletters : letters.Pairwise (· < ·)) {rounds : Nat} (h : InOrder step letters start found)
    (hexp : ∀ x ∈ found.take i, Expanded step letters found x) :
    InOrder step letters start (expand (fun x => letters.map (step x)) rounds i found) := by
  induction rounds generalizing i found with
  | zero => exact h
  | succ rounds ih =>
    rw [Search.expand]
    cases hi : found[i]? with
    | none => exact h
    | some y =>
      obtain ⟨u, hu⟩ := h.reached y (List.mem_of_getElem? hi)
      have hprev : ∀ z, Before step letters start z y → Expanded step letters found z :=
        fun z hz => hexp z (h.mem_take hi hz)
      have hclosed : ∀ z ∈ found.take i, ∀ x ∈ letters.map (step z), x ∈ found := by
        intro z hz x hx
        obtain ⟨c, hc, rfl⟩ := List.mem_map.mp hx
        exact hexp z hz c hc
      have hnext := h.extend hletters hu (List.nil_append letters).symm hprev fun _ hb => absurd hb List.not_mem_nil
      refine ih hnext fun z hz c hc => ?_
      exact extend_closed hclosed hi z hz _ (List.mem_map_of_mem hc)

theorem search_inOrder (hletters : letters.Pairwise (· < ·)) {rounds : Nat} :
    InOrder step letters start (search (fun x => letters.map (step x)) [start] rounds) := by
  have hstart : extend [] [start] = [start] := by simp [extend]
  rw [search, hstart]
  exact .expand hletters inOrder_start (by simp)

end Search

end Automata
