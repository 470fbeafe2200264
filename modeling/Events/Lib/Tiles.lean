import Mathlib.Data.List.Sort
import Mathlib.Data.List.Perm.Basic
import Mathlib.Order.Basic

/-!
# Tiles laid one after the other

A growing sequence of keyed rows is cut into *tiles*: a new tile starts above every row laid so far,
and only the newest tile receives rows. Reading the tiles in the order of where they start gives the
rows in the order of their keys, although tiles without rows may start at the same key.

* **`Laid`** — tiles in the order in which they were laid.
* **`Laid.apart`** — the rows of a tile are below those of any tile that starts no earlier.
* **`Laid.pairwise_flatMap`** — the rows of tiles sorted by where they start are sorted.
* **`eq_of_perm_of_pairwise_lt`** — a list of rows sorted by key is determined by its elements.
* **`take_append_flatMap`** — a bounded scan of a sequence of blocks.
* **`Stacked`** — tiles without a gap between them (`stacked_concat`, `Stacked.pairwise`).
-/

namespace Tiles

variable {τ ρ κ : Type} [LinearOrder κ] (first : τ → κ) (key : ρ → κ) (rows : τ → List ρ)

/-- Tiles in the order in which they were laid. -/
structure Laid (tiles : List τ) : Prop where
  lower : ∀ t ∈ tiles, ∀ x ∈ rows t, first t ≤ key x
  order : tiles.Pairwise fun t u => first t ≤ first u ∧ ∀ x ∈ rows t, key x < first u

variable {first key rows} {tiles ts : List τ} {t u : τ}

theorem pairwise_or {R : τ → τ → Prop} (h : tiles.Pairwise R) (ht : t ∈ tiles) (hu : u ∈ tiles)
    (hne : t ≠ u) : R t u ∨ R u t := by
  induction tiles with
  | nil => cases ht
  | cons v tiles ih =>
    obtain ⟨hv, htail⟩ := List.pairwise_cons.1 h
    rcases List.mem_cons.1 ht with rfl | ht'
    · rcases List.mem_cons.1 hu with rfl | hu'
      · exact absurd rfl hne
      · exact .inl (hv u hu')
    · rcases List.mem_cons.1 hu with rfl | hu'
      · exact .inr (hv t ht')
      · exact ih htail ht' hu'

/-- The rows of a tile are below those of any other tile that starts no earlier. -/
theorem Laid.apart (h : Laid first key rows tiles) (ht : t ∈ tiles) (hu : u ∈ tiles) (hne : t ≠ u)
    (hle : first t ≤ first u) {x y : ρ} (hx : x ∈ rows t) (hy : y ∈ rows u) : key x < key y := by
  rcases pairwise_or h.order ht hu hne with htu | hut
  · exact (htu.2 x hx).trans_le (h.lower u hu y hy)
  · -- a tile laid later that starts no later starts where the other one does, which is then empty
    have := (hut.2 y hy).trans_le hle
    exact absurd (h.lower u hu y hy) this.not_ge

/-- Reading tiles by where they start gives the rows in order. -/
theorem Laid.pairwise_flatMap {block : τ → List ρ} (h : Laid first key rows tiles)
    (hmem : ∀ t ∈ ts, t ∈ tiles) (hnodup : ts.Nodup)
    (hsorted : ts.Pairwise fun t u => first t ≤ first u)
    (hblock : ∀ t ∈ ts, (block t).Pairwise fun x y => key x < key y)
    (hsub : ∀ t ∈ ts, ∀ x ∈ block t, x ∈ rows t) :
    (ts.flatMap block).Pairwise fun x y => key x < key y := by
  rw [List.pairwise_flatMap]
  refine ⟨hblock, ?_⟩
  refine (hsorted.and hnodup).imp_of_mem fun {t u} ht hu hlt x hx y hy => ?_
  exact h.apart (hmem t ht) (hmem u hu) hlt.2 hlt.1 (hsub t ht x hx) (hsub u hu y hy)

theorem eq_of_perm_of_pairwise_lt (key : ρ → κ) {l l' : List ρ} (hp : l.Perm l')
    (h : l.Pairwise fun x y => key x < key y) (h' : l'.Pairwise fun x y => key x < key y) :
    l = l' :=
  hp.eq_of_pairwise (fun _ _ _ _ hab hba => absurd hab hba.asymm) h h'

/-- Sorting by key gives a strictly sorted list, if no key comes twice. -/
theorem pairwise_lt_insertionSort {le : ρ → ρ → Prop} [DecidableRel le] [Std.Total le]
    [IsTrans ρ le] (hle : ∀ x y, le x y ↔ key x ≤ key y) {l : List ρ}
    (hnodup : (l.map key).Nodup) : (l.insertionSort le).Pairwise fun x y => key x < key y := by
  have hsorted := List.pairwise_insertionSort le l
  have hnodup' : ((l.insertionSort le).map key).Nodup :=
    ((List.perm_insertionSort le l).map key).nodup_iff.2 hnodup
  refine (hsorted.and (List.pairwise_map.1 hnodup')).imp fun {x y} hxy => ?_
  exact lt_of_le_of_ne ((hle x y).1 hxy.1) hxy.2

/-- A bounded scan takes what is left of the bound from each block. -/
theorem take_append_flatMap {block : τ → List ρ} (limit : Nat) :
    ((t :: ts).flatMap block).take limit =
      (block t).take limit ++ (ts.flatMap block).take (limit - ((block t).take limit).length) := by
  rw [List.flatMap_cons, List.take_append, List.length_take]
  congr 2
  omega

/-! ## Tiles that go on from one another -/

/-- Each tile goes on from where the one before it has ended: `piece lo t hi` says that `t` covers what
is behind `lo`, up to `hi`. -/
def Stacked (piece : κ → τ → κ → Prop) : κ → List τ → κ → Prop
  | lo, [], hi => lo = hi
  | lo, t :: ts, hi => ∃ mid, piece lo t mid ∧ Stacked piece mid ts hi

section Stacked

variable {piece piece' : κ → τ → κ → Prop} {lo hi : κ} {us : List τ}

omit [LinearOrder κ] in
theorem stacked_append : Stacked piece lo (ts ++ us) hi ↔
    ∃ mid, Stacked piece lo ts mid ∧ Stacked piece mid us hi := by
  induction ts generalizing lo with
  | nil => simp [Stacked]
  | cons t ts ih =>
    simp only [List.cons_append, Stacked, ih]
    constructor
    · rintro ⟨a, ht, mid, hts, hus⟩
      exact ⟨mid, ⟨a, ht, hts⟩, hus⟩
    · rintro ⟨mid, ⟨a, ht, hts⟩, hus⟩
      exact ⟨a, ht, mid, hts, hus⟩

omit [LinearOrder κ] in
theorem stacked_concat : Stacked piece lo (ts ++ [t]) hi ↔
    ∃ mid, Stacked piece lo ts mid ∧ piece mid t hi := by
  rw [stacked_append]
  simp [Stacked]

omit [LinearOrder κ] in
theorem Stacked.congr (h : Stacked piece lo ts hi)
    (hp : ∀ t ∈ ts, ∀ a b, piece a t b → piece' a t b) : Stacked piece' lo ts hi := by
  induction ts generalizing lo with
  | nil => exact h
  | cons t ts ih =>
    obtain ⟨mid, ht, hts⟩ := h
    exact ⟨mid, hp t List.mem_cons_self lo mid ht, ih hts fun u hu => hp u (List.mem_cons_of_mem _ hu)⟩

variable (hle : ∀ a t b, piece a t b → a ≤ b)
include hle

theorem Stacked.le (h : Stacked piece lo ts hi) : lo ≤ hi := by
  induction ts generalizing lo with
  | nil => exact le_of_eq h
  | cons t ts ih =>
    obtain ⟨mid, ht, hts⟩ := h
    exact (hle lo t mid ht).trans (ih hts)

/-- Every tile lies between the ends of the stack. -/
theorem Stacked.mem (h : Stacked piece lo ts hi) (ht : t ∈ ts) : ∃ a b, piece a t b ∧ lo ≤ a ∧ b ≤ hi := by
  obtain ⟨before, after, rfl⟩ := List.append_of_mem ht
  obtain ⟨a, hbefore, b, hpiece, hafter⟩ := stacked_append.1 h
  exact ⟨a, b, hpiece, hbefore.le hle, hafter.le hle⟩

/-- A tile ends where a later one starts, or before. -/
theorem Stacked.pairwise (h : Stacked piece lo ts hi) :
    ts.Pairwise fun t u => ∃ a b c d, piece a t b ∧ piece c u d ∧ b ≤ c := by
  induction ts generalizing lo with
  | nil => exact List.Pairwise.nil
  | cons t ts ih =>
    obtain ⟨mid, ht, hts⟩ := h
    refine List.pairwise_cons.2 ⟨fun u hu => ?_, ih hts⟩
    obtain ⟨c, d, hu, hc, -⟩ := hts.mem hle hu
    exact ⟨lo, mid, c, d, ht, hu, hc⟩

end Stacked

end Tiles
