import Akita.Lib.Numerals

/-!
# Binary search and sorted indexes

`binarySearchBy` is the slice search of the Rust core library: it halves the window, keeping the upper
half unless the probe answers `gt`, and reads the last element left. On a list that the probe cuts into
`lt`, then `eq`, then `gt` (`Cut`), it finds an `eq` position or the boundary between `lt` and `gt`.

A list sorted by a key whose neighbours never carry equal keys carries each key once
(`strictly_sorted`), so that a search returns the only element with its key.
-/

namespace Akita.Lib

open List

section

variable {α : Type}

/-! ## The search -/

/-- The probe at a position; a position past the end is above everything. -/
def probeAt (probe : α → Ordering) (l : List α) (i : ℕ) : Ordering := (l[i]?.map probe).getD .gt

/-- The loop of the search: the window starts at `base` and holds `size` elements. -/
def searchLoop (probe : α → Ordering) (l : List α) : ℕ → ℕ → ℕ → ℕ
  | 0, base, _ => base
  | fuel + 1, base, size =>
    if size ≤ 1 then base
    else
      let half := size / 2
      let mid := base + half
      searchLoop probe l fuel (if probeAt probe l mid = .gt then base else mid) (size - half)

/-- `slice::binary_search_by`: the position of a match, or the position where one could be inserted. -/
def binarySearchBy (probe : α → Ordering) (l : List α) : Except ℕ ℕ :=
  if l = [] then .error 0
  else
    let base := searchLoop probe l l.length 0 l.length
    match probeAt probe l base with
    | .eq => .ok base
    | .lt => .error (base + 1)
    | .gt => .error base

def binarySearchByKey {κ : Type} [LinearOrder κ] (key : α → κ) (k : κ) (l : List α) : Except ℕ ℕ :=
  binarySearchBy (fun a => compare (key a) k) l

def partitionPoint (below : α → Bool) (l : List α) : ℕ :=
  match binarySearchBy (fun a => if below a then .lt else .gt) l with
  | .ok i => i
  | .error i => i

/-- The probe answers `lt` on a first part of the list and `gt` on a last part. -/
structure Cut (probe : α → Ordering) (l : List α) : Prop where
  lt : ∀ i j, i ≤ j → j < l.length → probeAt probe l j = .lt → probeAt probe l i = .lt
  gt : ∀ i j, i ≤ j → probeAt probe l i = .gt → probeAt probe l j = .gt

section

variable {probe : α → Ordering} {l : List α} {i : ℕ}

/-- What the loop keeps: everything before the window is not above, everything after it is. -/
theorem searchLoop_spec (hcut : Cut probe l) {fuel base size : ℕ} (hfuel : size ≤ fuel + 1) (hsize : 0 < size)
    (hbase : base = 0 ∨ probeAt probe l base ≠ .gt) (habove : probeAt probe l (base + size) = .gt) :
    (searchLoop probe l fuel base size = 0 ∨ probeAt probe l (searchLoop probe l fuel base size) ≠ .gt) ∧
      probeAt probe l (searchLoop probe l fuel base size + 1) = .gt := by
  induction fuel generalizing base size with
  | zero =>
    obtain rfl : size = 1 := by omega
    exact ⟨hbase, habove⟩
  | succ fuel ih =>
    unfold searchLoop
    split
    · obtain rfl : size = 1 := by omega
      exact ⟨hbase, habove⟩
    · refine ih (by omega) (by omega) ?_ ?_
      · split
        · exact hbase
        · exact Or.inr ‹_›
      · split
        · rename_i hmid
          exact hcut.gt (base + size / 2) _ (by omega) hmid
        · rwa [show base + size / 2 + (size - size / 2) = base + size by omega]

theorem probeAt_length : probeAt probe l l.length = .gt := by simp [probeAt]

theorem probeAt_of_lt (hi : i < l.length) : probeAt probe l i = probe l[i] := by simp [probeAt, hi]

theorem binarySearchBy_ok (h : binarySearchBy probe l = .ok i) : probeAt probe l i = .eq := by
  unfold binarySearchBy at h
  split at h
  · cases h
  · dsimp only at h
    split at h
    · cases h
      assumption
    · cases h
    · cases h

/-- **A failed search on a cut list** stops at the boundary: everything before it is below, everything from it
on is above. -/
theorem binarySearchBy_error (hcut : Cut probe l) (h : binarySearchBy probe l = .error i) :
    (∀ j < i, probeAt probe l j = .lt) ∧ ∀ j ≥ i, probeAt probe l j = .gt := by
  unfold binarySearchBy at h
  split at h
  · cases h
    subst ‹l = []›
    exact ⟨by simp, fun j _ => by simp [probeAt]⟩
  · rename_i hne
    dsimp only at h
    have hlen : 0 < l.length := length_pos_iff.2 hne
    have hfuel : l.length ≤ l.length + 1 := Nat.le_succ _
    obtain ⟨hbase, habove⟩ := searchLoop_spec hcut hfuel hlen (Or.inl rfl) (by rw [zero_add]; exact probeAt_length)
    set base := searchLoop probe l l.length 0 l.length
    have hlt_length : probeAt probe l base = .lt → base < l.length := fun hp => by
      by_contra hge
      rw [probeAt, getElem?_eq_none (by omega)] at hp
      cases hp
    split at h <;> rename_i hp
    · cases h
    · obtain rfl := Except.error.inj h
      exact ⟨fun j hj => hcut.lt j base (by omega) (hlt_length hp) hp, fun j hj => hcut.gt _ j hj habove⟩
    · obtain rfl := Except.error.inj h
      have hzero : base = 0 := hbase.resolve_right (not_not.2 hp)
      exact ⟨by omega, fun j hj => hcut.gt _ j hj hp⟩

end

/-! ## Searches by key -/

section

variable {κ : Type} [LinearOrder κ] {key : α → κ} {l : List α} {i : ℕ}

theorem pairwise_insertionSort_key (key : α → κ) (l : List α) :
    (l.insertionSort fun a b => key a ≤ key b).Pairwise fun a b => key a ≤ key b :=
  haveI : Std.Total fun a b : α => key a ≤ key b := ⟨fun _ _ => le_total _ _⟩
  haveI : IsTrans α fun a b => key a ≤ key b := ⟨fun _ _ _ => le_trans⟩
  pairwise_insertionSort _ l

theorem mem_key_injective (hsorted : l.Pairwise fun a b => key a < key b) {a b : α} (ha : a ∈ l) (hb : b ∈ l)
    (h : key a = key b) : a = b := by
  obtain ⟨i, hi, rfl⟩ := getElem_of_mem ha
  obtain ⟨j, hj, rfl⟩ := getElem_of_mem hb
  rcases lt_trichotomy i j with hij | rfl | hij
  · exact absurd h (pairwise_iff_getElem.1 hsorted i j hi hj hij).ne
  · rfl
  · exact absurd h (pairwise_iff_getElem.1 hsorted j i hj hi hij).ne'

section

variable (hsorted : l.Pairwise fun a b => key a ≤ key b)

include hsorted

theorem strictly_sorted
    (hadjacent : ∀ pair ∈ l.zip l.tail, key pair.1 ≠ key pair.2) : l.Pairwise fun a b => key a < key b := by
  induction l with
  | nil => exact List.Pairwise.nil
  | cons a l ih =>
    obtain ⟨ha, hl⟩ := pairwise_cons.1 hsorted
    rcases l with _ | ⟨b, l⟩
    · simp
    · have hrest := ih hl fun pair hpair => hadjacent pair (by simp_all)
      have hab : key a < key b := lt_of_le_of_ne (ha b (by simp)) (hadjacent (a, b) (by simp))
      refine pairwise_cons.2 ⟨fun c hc => ?_, hrest⟩
      rcases mem_cons.1 hc with rfl | hc
      · exact hab
      · exact hab.trans ((pairwise_cons.1 hrest).1 c hc)

theorem key_le_of_le {j : ℕ} (hij : i ≤ j) (hj : j < l.length) : key (l.get ⟨i, hij.trans_lt hj⟩) ≤ key l[j] := by
  rcases hij.eq_or_lt with rfl | hlt
  · rfl
  · exact pairwise_iff_getElem.1 hsorted i j (hlt.trans hj) hj hlt

theorem cut_of_sorted {probe : α → Ordering} (hlt : ∀ a b, key a ≤ key b → probe b = .lt → probe a = .lt)
    (hgt : ∀ a b, key a ≤ key b → probe a = .gt → probe b = .gt) : Cut probe l where
  lt i j hij hj hp := by
    rw [probeAt_of_lt hj] at hp
    rw [probeAt_of_lt (hij.trans_lt hj)]
    exact hlt _ _ (key_le_of_le hsorted hij hj) hp
  gt i j hij hp := by
    by_cases hj : j < l.length
    · rw [probeAt_of_lt (hij.trans_lt hj)] at hp
      rw [probeAt_of_lt hj]
      exact hgt _ _ (key_le_of_le hsorted hij hj) hp
    · simp [probeAt, getElem?_eq_none (not_lt.1 hj)]

end

variable {k : κ}

/-- **A search by key on a sorted list** finds an element with the key. -/
theorem search_key_ok (h : binarySearchByKey key k l = .ok i) : ∃ a, l[i]? = some a ∧ key a = k := by
  have hp := binarySearchBy_ok h
  by_cases hi : i < l.length
  · rw [probeAt_of_lt hi, compare_eq_iff_eq] at hp
    exact ⟨l[i], by simp [hi], hp⟩
  · simp [probeAt, getElem?_eq_none (not_lt.1 hi)] at hp

theorem search_key_error (hsorted : l.Pairwise fun a b => key a ≤ key b) (h : binarySearchByKey key k l = .error i) :
    ∀ a ∈ l, key a ≠ k := by
  have hcut : Cut (fun a => compare (key a) k) l := by
    refine cut_of_sorted hsorted (fun a b hab hb => ?_) fun a b hab ha => ?_
    · exact compare_lt_iff_lt.2 (hab.trans_lt (compare_lt_iff_lt.1 hb))
    · exact compare_gt_iff_gt.2 ((compare_gt_iff_gt.1 ha).trans_le hab)
  obtain ⟨hbelow, habove⟩ := binarySearchBy_error hcut h
  intro a ha hk
  obtain ⟨j, hj, rfl⟩ := getElem_of_mem ha
  have heq : probeAt (fun a => compare (key a) k) l j = .eq := by
    rw [probeAt_of_lt hj]
    exact compare_eq_iff_eq.2 hk
  rcases lt_or_ge j i with hji | hji
  · rw [hbelow j hji] at heq
    cases heq
  · rw [habove j hji] at heq
    cases heq

/-- **The partition point of a sorted list** is where the keys reach `k`. -/
theorem partitionPoint_spec (hsorted : l.Pairwise fun a b => key a ≤ key b) :
    (∀ j a, j < partitionPoint (fun a => decide (key a < k)) l → l[j]? = some a → key a < k) ∧
      ∀ j a, partitionPoint (fun a => decide (key a < k)) l ≤ j → l[j]? = some a → k ≤ key a := by
  have hcut : Cut (fun a => if decide (key a < k) = true then Ordering.lt else .gt) l := by
    refine cut_of_sorted hsorted (fun a b hab hb => ?_) fun a b hab ha => ?_
    · simp only [decide_eq_true_eq, ite_eq_left_iff, reduceCtorEq, imp_false, not_not] at hb ⊢
      exact hab.trans_lt hb
    · simp only [decide_eq_true_eq, ite_eq_right_iff, reduceCtorEq, imp_false] at ha ⊢
      exact fun hb => ha (hab.trans_lt hb)
  have hprobe : ∀ j a, l[j]? = some a → probeAt (fun a => if decide (key a < k) = true then Ordering.lt else .gt) l j =
      if key a < k then .lt else .gt := fun j a hj => by simp [probeAt, hj]
  unfold partitionPoint
  rcases hsearch : binarySearchBy (fun a => if decide (key a < k) = true then Ordering.lt else .gt) l with i | i
  · obtain ⟨hbelow, habove⟩ := binarySearchBy_error hcut hsearch
    refine ⟨fun j a hji hj => ?_, fun j a hji hj => ?_⟩
    · have := (hprobe j a hj).symm.trans (hbelow j hji)
      simpa using this
    · have := (hprobe j a hj).symm.trans (habove j hji)
      simpa using this
  · -- this probe never answers `eq`
    have heq := binarySearchBy_ok hsearch
    rcases hi : l[i]? with _ | a
    · simp [probeAt, hi] at heq
    · rw [hprobe i a hi] at heq
      split at heq <;> cases heq

end

end

/-!
## Ordered maps

A map as the list of its entries in the order of their keys. An update touches the entry of one key, or
makes it.
-/

variable {κ α : Type*} [LinearOrder κ]

/-- The entry of `key` updated by `f`, which sees the value that is there. -/
def updateEntry (key : κ) (f : Option α → α) : List (κ × α) → List (κ × α)
  | [] => [(key, f none)]
  | (other, value) :: entries =>
    if key < other then (key, f none) :: (other, value) :: entries
    else if key = other then (other, f (some value)) :: entries
    else (other, value) :: updateEntry key f entries

/-- A value in front of the list of an entry. -/
def pushEntry (key : κ) (value : α) (entries : List (κ × List α)) : List (κ × List α) :=
  updateEntry key (fun old => old.getD [] ++ [value]) entries

theorem pushEntry_perm (key : κ) (value : α) (entries : List (κ × List α)) :
    ((pushEntry key value entries).flatMap (·.2)).Perm (value :: entries.flatMap (·.2)) := by
  induction entries with
  | nil => simp [pushEntry, updateEntry]
  | cons entry entries ih =>
    obtain ⟨other, values⟩ := entry
    rw [pushEntry, updateEntry]
    split
    · simp
    · split
      · simp only [Option.getD_some, List.flatMap_cons, List.append_assoc, List.singleton_append]
        exact List.perm_middle
      · rw [List.flatMap_cons, List.flatMap_cons]
        exact (List.Perm.append_left _ ih).trans List.perm_middle

end Akita.Lib
