import Automata.Graph.Det
import Mathlib.Data.List.Nodup
import Mathlib.Data.List.Perm.Subperm
import Mathlib.Data.List.ProdSigma

/-!
# Complete tables by counting

When all sources are declared, a graph is complete iff it has as many edges as there are
pairs of a declared state and a character (`isComplete_iff_size`).
-/

namespace Automata.DetGraph

variable {g : DetGraph} {q : State} {c : Char}

def keys (g : DetGraph) : List (State × Char) := g.edges.toList.map fun e => (e.source, e.label)

def slots (g : DetGraph) : List (State × Char) := g.states.toList.product g.symbols.toList

theorem length_keys : g.keys.length = g.size := List.length_map _

theorem length_slots : g.slots.length = g.states.size * g.symbols.size := List.length_product ..

theorem mem_keys : (q, c) ∈ g.keys ↔ ∃ r, g.target? q c = some r := by
  unfold keys
  rw [List.mem_map]
  constructor
  · intro h
    obtain ⟨e, he, h⟩ := h
    cases h
    exact ⟨e.target, target?_eq_some.mpr he⟩
  · intro h
    obtain ⟨r, hr⟩ := h
    exact ⟨_, target?_eq_some.mp hr, rfl⟩

theorem mem_slots : (q, c) ∈ g.slots ↔ q ∈ g.states ∧ c ∈ g.symbols := List.mem_product

theorem nodup_keys : g.keys.Nodup := by
  refine List.Nodup.map_on ?_ g.edges.nodup_toList
  intro e he f hf h
  obtain ⟨hs, hl⟩ := Prod.mk.inj h
  exact g.functional e he f hf hs hl

theorem nodup_slots : g.slots.Nodup := g.states.nodup_toList.product g.symbols.nodup_toList

theorem keys_subset_slots (hs : ∀ e ∈ g.edges, e.source ∈ g.states) : g.keys ⊆ g.slots := by
  intro x hx
  obtain ⟨q, c⟩ := x
  obtain ⟨r, hr⟩ := mem_keys.mp hx
  have he := target?_eq_some.mp hr
  exact mem_slots.mpr ⟨hs _ he, mem_symbols.mpr ⟨q, r, he⟩⟩

theorem isComplete_iff_slots_subset : g.isComplete ↔ g.slots ⊆ g.keys := by
  rw [isComplete_iff]
  constructor
  · intro h x hx
    obtain ⟨q, c⟩ := x
    obtain ⟨hq, hc⟩ := mem_slots.mp hx
    exact mem_keys.mpr (h q hq c hc)
  · intro h q hq c hc
    exact mem_keys.mp (h (mem_slots.mpr ⟨hq, hc⟩))

/-- No key is used twice, so the keys can only be all the pairs if there are as many of them. -/
theorem isComplete_iff_size (hs : ∀ e ∈ g.edges, e.source ∈ g.states) :
    g.isComplete ↔ g.size = g.states.size * g.symbols.size := by
  rw [isComplete_iff_slots_subset, ← length_keys, ← length_slots]
  have hkeys : g.keys.Subperm g.slots := List.subperm_of_subset nodup_keys (keys_subset_slots hs)
  constructor
  · intro h
    exact Nat.le_antisymm hkeys.length_le (List.subperm_of_subset nodup_slots h).length_le
  · intro h
    exact (hkeys.perm_of_length_le (Nat.le_of_eq h.symm)).symm.subset

end Automata.DetGraph
