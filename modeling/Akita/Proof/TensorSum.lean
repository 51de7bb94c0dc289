import Akita.Lib.MixedRadix
import Akita.Proof.EqInterval

/-!
# What the tensor families put on a left address

The abstract weight of a left address, index tuple by index tuple, and the two shapes of a family that the
materialization recognizes: a contiguous unit interval, and a dense destination with a residual on the right.

* `leftWeight_eq`: the sum over the index tuples is an address sum.
* `leftSum_interval`: a contiguous unit family is an interval of values.
* `leftSum_dense`: a family with one dense destination is its residual, coordinate by coordinate.
-/

namespace Akita.OffsetEq

open Lib Finset EqPairTensorAxis

section

variable {F : Type} [Field F] {e : ℕ → F} {axis : EqPairTensorAxis F}

/-! ## Index tuples -/

def EqPairTensorAxis.weightAt (axis : EqPairTensorAxis F) (i : ℕ) : F := (axis.coordinateWeight i).getD 0

/-- The index tuples of a list of axes: one coordinate below each length. -/
def indexTuples : List (EqPairTensorAxis F) → List (List ℕ)
  | [] => [[]]
  | axis :: axes => (List.range axis.len).flatMap fun i => (indexTuples axes).map (i :: ·)

namespace EqPairTensorFamily

variable (family : EqPairTensorFamily F)

def leftAddress (t : List ℕ) : ℕ := family.leftOffset + (List.zipWith (fun axis i => axis.leftStride * i) family.axes t).sum

def rightAddress (t : List ℕ) : ℕ := family.rightOffset + (List.zipWith (fun axis i => axis.rightStride * i) family.axes t).sum

def tupleWeight (t : List ℕ) : F := family.scalar * (List.zipWith weightAt family.axes t).prod

/-- What one family puts on the left address `a`, for the value `e` of each right address. -/
def leftWeight (e : ℕ → F) (a : ℕ) : F :=
  (((indexTuples family.axes).filter fun t => family.leftAddress t = a).map fun t =>
    family.tupleWeight t * e (family.rightAddress t)).sum

end EqPairTensorFamily

/-- **What the families put on the left address `a`**: the sum over the families and the index tuples whose left address
is `a`. -/
def leftWeight (e : ℕ → F) (families : List (EqPairTensorFamily F)) (a : ℕ) : F :=
  (families.map fun family => family.leftWeight e a).sum

/-! ## Address sums -/

def EqPairTensorAxis.paired (axis : EqPairTensorAxis F) : AddressAxis (ℕ × ℕ) F :=
  ⟨axis.len, (axis.leftStride, axis.rightStride), axis.weightAt⟩

def EqPairTensorAxis.right (axis : EqPairTensorAxis F) : AddressAxis ℕ F := ⟨axis.len, axis.rightStride, axis.weightAt⟩

theorem sum_filter_map {α : Type} (l : List α) (p : α → Prop) [DecidablePred p] (f : α → F) :
    ((l.filter fun x => p x).map f).sum = (l.map fun x => if p x then f x else 0).sum := by
  induction l with
  | nil => rfl
  | cons x l ih => by_cases hx : p x <;> simp [hx, ih]

theorem sum_indexTuples (g : ℕ × ℕ → F) : ∀ (axes : List (EqPairTensorAxis F)) (left right : ℕ),
    ((indexTuples axes).map fun t => (List.zipWith weightAt axes t).prod *
      g (left + (List.zipWith (fun axis i => axis.leftStride * i) axes t).sum,
        right + (List.zipWith (fun axis i => axis.rightStride * i) axes t).sum)).sum =
      addressSum g (axes.map paired) (left, right) := by
  intro axes
  induction axes with
  | nil => intro left right; simp [indexTuples]
  | cons axis axes ih =>
    intro left right
    rw [List.map_cons, addressSum_cons, indexTuples, List.map_flatMap, List.flatMap_def, List.sum_flatten, List.map_map, ← sum_map_range]
    congr 1
    apply List.map_congr_left
    intro i _
    have hnext := ih (left + axis.leftStride * i) (right + axis.rightStride * i)
    have hpair : (left, right) + i • axis.paired.stride = (left + axis.leftStride * i, right + axis.rightStride * i) := by
      simp [paired, mul_comm]
    rw [Function.comp_apply, hpair, ← hnext, List.map_map, ← List.sum_map_mul_left]
    congr 1
    apply List.map_congr_left
    intro t _
    simp only [Function.comp_apply, List.zipWith_cons_cons, List.prod_cons, List.sum_cons, ← add_assoc]
    exact mul_assoc _ _ _

/-- The values `e` of the right addresses, at the left address `a` only. -/
def onLeft (e : ℕ → F) (a : ℕ) (p : ℕ × ℕ) : F := if p.1 = a then e p.2 else 0

/-- The address sum of a list of axes at the left address `a`. -/
def leftSum (e : ℕ → F) (axes : List (EqPairTensorAxis F)) (left right a : ℕ) : F :=
  addressSum (onLeft e a) (axes.map paired) (left, right)

theorem leftSum_cons (e : ℕ → F) (axis : EqPairTensorAxis F) (axes : List (EqPairTensorAxis F)) (left right a : ℕ) :
    leftSum e (axis :: axes) left right a = ∑ i ∈ range axis.len,
      axis.weightAt i * leftSum e axes (left + axis.leftStride * i) (right + axis.rightStride * i) a := by
  rw [leftSum, List.map_cons, addressSum_cons]
  refine sum_congr rfl fun i _ => ?_
  have hpair : (left, right) + i • axis.paired.stride = (left + axis.leftStride * i, right + axis.rightStride * i) := by
    simp [paired, mul_comm]
  rw [hpair]
  rfl

/-- **A family's weight** is its scalar times an address sum. -/
theorem leftWeight_eq (e : ℕ → F) (family : EqPairTensorFamily F) (a : ℕ) :
    family.leftWeight e a = family.scalar * leftSum e family.axes family.leftOffset family.rightOffset a := by
  rw [EqPairTensorFamily.leftWeight, sum_filter_map, leftSum, ← sum_indexTuples, ← List.sum_map_mul_left]
  congr 1
  apply List.map_congr_left
  intro t _
  unfold EqPairTensorFamily.leftAddress EqPairTensorFamily.tupleWeight EqPairTensorFamily.rightAddress onLeft
  split
  · exact mul_assoc _ _ _
  · simp

theorem leftWeight_of_scalar_zero {family : EqPairTensorFamily F} (h : family.scalar = 0) (a : ℕ) :
    family.leftWeight e a = 0 := by rw [leftWeight_eq, h, zero_mul]

/-! ## Contiguous intervals -/

/-- The value at `a` of the values from `right` on, written from `left` on. -/
def intervalAt (e : ℕ → F) (left len right a : ℕ) : F := if left ≤ a ∧ a < left + len then e (right + (a - left)) else 0

theorem weightAt_of_isUnit (h : axis.isUnit = true) {i : ℕ} (hi : i < axis.len) : axis.weightAt i = 1 := by
  cases hweights : axis.weights with
  | unit =>
    have hnot : ¬ i ≥ axis.len := by omega
    rw [weightAt, coordinateWeight, if_neg hnot, hweights]
    rfl
  | dense weights => simp [isUnit, hweights] at h
  | bitProduct factors => simp [isUnit, hweights] at h

theorem sum_range_onLeft (g : ℕ → F) (left len a : ℕ) :
    ∑ i ∈ range len, (if left + i = a then g i else 0) = if left ≤ a ∧ a < left + len then g (a - left) else 0 := by
  by_cases h : left ≤ a ∧ a < left + len
  · rw [if_pos h, sum_eq_single (a - left)]
    · rw [if_pos (by omega)]
    · intro i _ hne
      rw [if_neg (by omega)]
    · intro hmem
      exact absurd (mem_range.2 (by omega)) hmem
  · rw [if_neg h]
    apply sum_eq_zero
    intro i hi
    have hi := mem_range.1 hi
    rw [if_neg (by omega)]

/-- **A contiguous unit axis** is an interval of values. -/
theorem leftSum_interval (hunit : axis.isUnit = true) (hleft : axis.leftStride = 1) (hright : axis.rightStride = 1)
    (left right a : ℕ) : leftSum e [axis] left right a = intervalAt e left axis.len right a := by
  rw [leftSum, List.map_singleton, addressSum_cons, intervalAt, ← sum_range_onLeft fun i => e (right + i)]
  refine sum_congr rfl fun i hi => ?_
  have hweight : axis.paired.weight i = 1 := weightAt_of_isUnit hunit (mem_range.1 hi)
  rw [hweight, one_mul, addressSum_nil]
  simp [onLeft, paired, hleft, hright]

/-! ## Dense destinations -/

def residualSum (f : ℕ → F) (axes : List (EqPairTensorAxis F)) (right : ℕ) : F :=
  addressSum f (axes.map EqPairTensorAxis.right) right

theorem residualSum_cons (f : ℕ → F) (axis : EqPairTensorAxis F) (axes : List (EqPairTensorAxis F)) (right : ℕ) :
    residualSum f (axis :: axes) right = ∑ i ∈ range axis.len, axis.weightAt i * residualSum f axes (right + axis.rightStride * i) := by
  rw [residualSum, List.map_cons, addressSum_cons]
  refine sum_congr rfl fun i _ => ?_
  rw [residualSum, smul_eq_mul, mul_comm i]
  rfl

theorem residualSum_shift (f : ℕ → F) (axes : List (EqPairTensorAxis F)) (base right : ℕ) :
    residualSum f axes (base + right) = residualSum (fun r => f (base + r)) axes right := by
  unfold residualSum
  rw [add_comm, addressSum_shift]
  simp only [add_comm]

theorem leftSum_residual {a : ℕ} : ∀ {axes : List (EqPairTensorAxis F)} {left right : ℕ},
    (∀ axis ∈ axes, axis.leftStride = 0) → leftSum e axes left right a = if left = a then residualSum e axes right else 0 := by
  intro axes
  induction axes with
  | nil => intro left right _; rfl
  | cons axis axes ih =>
    intro left right h
    obtain ⟨haxis, haxes⟩ := List.forall_mem_cons.1 h
    have hstep : ∀ i, addressSum (onLeft e a) (axes.map EqPairTensorAxis.paired) ((left, right) + i • axis.paired.stride) =
        if left = a then residualSum e axes (right + axis.rightStride * i) else 0 := by
      intro i
      have hpair : (left, right) + i • axis.paired.stride = (left, right + axis.rightStride * i) := by
        simp [EqPairTensorAxis.paired, haxis, mul_comm]
      rw [hpair]
      exact ih haxes
    rw [leftSum, List.map_cons, addressSum_cons, residualSum_cons]
    simp only [hstep]
    by_cases hleft : left = a
    · simp only [if_pos hleft]
      rfl
    · simp [hleft]

/-- **A dense destination** holds the residual of each of its coordinates. -/
theorem leftSum_dense {axes : List (EqPairTensorAxis F)} {d : ℕ} (haxis : axes[d]? = some axis) (hunit : axis.isUnit = true)
    (hstride : axis.leftStride = 1) (hothers : ∀ other ∈ axes.eraseIdx d, other.leftStride = 0) (left right a : ℕ) :
    leftSum e axes left right a = if left ≤ a ∧ a < left + axis.len then
      residualSum e (axes.eraseIdx d) (right + axis.rightStride * (a - left)) else 0 := by
  obtain ⟨hlt, hget⟩ := List.getElem?_eq_some_iff.1 haxis
  -- the destination axis can be summed first
  have hperm : (axis :: axes.eraseIdx d).Perm axes := hget ▸ List.getElem_cons_eraseIdx_perm hlt
  rw [leftSum, ← addressSum_perm (hperm.map _), List.map_cons, addressSum_cons,
    ← sum_range_onLeft fun i => residualSum e (axes.eraseIdx d) (right + axis.rightStride * i)]
  refine sum_congr rfl fun i hi => ?_
  have hweight : axis.paired.weight i = 1 := weightAt_of_isUnit hunit (mem_range.1 hi)
  have hpair : (left, right) + i • axis.paired.stride = (left + i, right + axis.rightStride * i) := by
    simp [paired, hstride, mul_comm]
  rw [hweight, one_mul, hpair]
  exact leftSum_residual hothers

end

/-!
## Disjoint unit intervals

Contiguous unit families are filled as intervals of equality values.

* `fill_add`: filling a slice of zeros adds an interval.
* `collectUnitIntervals_spec`: the collected intervals are the weights of the families.
* `mergeUnitIntervals_spec`: merging keeps the sum, and what is left does not overlap.
* `materializeDisjointUnitIntervals_exact`: the filled output is the weight of every left address.
-/

variable {F : Type} {start n : ℕ} {l : List (ℕ × ℕ × ℕ)}

/-! ### Slices -/

variable {output values : List F} {axis : EqPairTensorAxis F}

theorem writeSlice_length (h : start + values.length ≤ output.length) :
    (writeSlice output start values).length = output.length := by
  simp only [writeSlice, List.length_append, List.length_take, List.length_drop]
  omega

theorem contiguousUnit_spec {axes : List (EqPairTensorAxis F)} (h : contiguousUnit axes = some axis) :
    axes = [axis] ∧ axis.isUnit = true ∧ axis.leftStride = 1 ∧ axis.rightStride = 1 := by
  unfold contiguousUnit at h
  split at h
  · split at h
    · next hshape =>
      cases h
      exact ⟨rfl, hshape⟩
    · cases h
  · cases h

variable [Field F] {e : ℕ → F}

theorem writeSlice_getD (h : start + values.length ≤ output.length) (a : ℕ) : (writeSlice output start values).getD a 0 =
      if start ≤ a ∧ a < start + values.length then values.getD (a - start) 0 else output.getD a 0 := by
  have htake : (output.take start).length = start := by
    rw [List.length_take]
    omega
  unfold writeSlice
  simp only [List.getD_eq_getElem?_getD]
  rcases lt_or_ge a start with ha | ha
  · rw [if_neg (by omega), List.append_assoc, List.getElem?_append_left (by omega), List.getElem?_take_of_lt ha]
  · rcases lt_or_ge a (start + values.length) with hb | hb
    · rw [if_pos ⟨ha, hb⟩, List.append_assoc, List.getElem?_append_right (by omega), htake,
        List.getElem?_append_left (by omega)]
    · rw [if_neg (by omega), List.getElem?_append_right (by rw [List.length_append]; omega), List.getElem?_drop, List.length_append, htake]
      congr 2
      omega

/-! ### Sums of intervals -/

/-- The sum of intervals `(left start, left end, right start)` at `a`. -/
def intervalSum (e : ℕ → F) (intervals : List (ℕ × ℕ × ℕ)) (a : ℕ) : F :=
  (intervals.map fun t => intervalAt e t.1 (t.2.1 - t.1) t.2.2 a).sum

@[simp] theorem intervalSum_append (l l' : List (ℕ × ℕ × ℕ)) (a : ℕ) :
    intervalSum e (l ++ l') a = intervalSum e l a + intervalSum e l' a := by simp [intervalSum]

@[simp] theorem intervalSum_singleton (t : ℕ × ℕ × ℕ) (a : ℕ) : intervalSum e [t] a = intervalAt e t.1 (t.2.1 - t.1) t.2.2 a := by
  simp [intervalSum]

/-- An interval ends behind its start and inside the output. -/
def Inside (n : ℕ) (t : ℕ × ℕ × ℕ) : Prop := t.1 ≤ t.2.1 ∧ t.2.1 ≤ n

/-- A contiguous unit family of scalar one is an interval. -/
theorem leftWeight_interval {family : EqPairTensorFamily F} (hscalar : family.scalar = 1)
    (haxis : contiguousUnit family.axes = some axis) (a : ℕ) :
    family.leftWeight e a = intervalAt e family.leftOffset axis.len family.rightOffset a := by
  obtain ⟨haxes, hunit, hleft, hright⟩ := contiguousUnit_spec haxis
  rw [leftWeight_eq, hscalar, one_mul, haxes, leftSum_interval hunit hleft hright]

theorem intervalAt_merge {mid stop right : ℕ} (hstart : start ≤ mid) (hmid : mid ≤ stop) (a : ℕ) :
    intervalAt e start (mid - start) right a + intervalAt e mid (stop - mid) (right + (mid - start)) a =
      intervalAt e start (stop - start) right a := by
  unfold intervalAt
  rcases lt_or_ge a mid with ha | ha
  · rw [if_neg (show ¬ (mid ≤ a ∧ a < mid + (stop - mid)) by omega), add_zero]
    by_cases hin : start ≤ a
    · rw [if_pos (by omega), if_pos (by omega)]
    · rw [if_neg (by omega), if_neg (by omega)]
  · rw [if_neg (show ¬ (start ≤ a ∧ a < start + (mid - start)) by omega), zero_add]
    by_cases hin : a < stop
    · rw [if_pos (by omega), if_pos (by omega)]
      congr 1
      omega
    · rw [if_neg (by omega), if_neg (by omega)]

/-- Intervals in order, apart from each other and inside the output. -/
structure Ordered (n : ℕ) (l : List (ℕ × ℕ × ℕ)) : Prop where
  inside : ∀ t ∈ l, Inside n t
  apart : l.Pairwise fun s t => s.2.1 ≤ t.1

theorem Ordered.concat {t : ℕ × ℕ × ℕ} (h : Ordered n l) (ht : Inside n t) (hafter : ∀ s ∈ l, s.2.1 ≤ t.1) :
    Ordered n (l ++ [t]) := by
  refine ⟨?_, List.pairwise_append.2 ⟨h.apart, List.pairwise_singleton _ _, ?_⟩⟩
  · intro s hs
    rcases List.mem_append.1 hs with hs | hs
    · exact h.inside s hs
    · obtain rfl := List.mem_singleton.1 hs
      exact ht
  · intro s hs t' ht'
    obtain rfl := List.mem_singleton.1 ht'
    exact hafter s hs

/-- **Merging** keeps the sum and leaves intervals that do not overlap. -/
theorem mergeUnitIntervals_spec : ∀ {rest merged l : List (ℕ × ℕ × ℕ)}, (∀ t ∈ rest, Inside n t) → Ordered n merged →
    mergeUnitIntervals rest merged = .ok (some l) →
    Ordered n l ∧ ∀ a, intervalSum e l a = intervalSum e merged a + intervalSum e rest a := by
  intro rest
  induction rest with
  | nil =>
    intro merged l _ hmerged h
    obtain rfl := Option.some.inj (Except.ok.inj h)
    exact ⟨hmerged, fun a => by simp [intervalSum]⟩
  | cons t rest ih =>
    intro merged l hall hmerged h
    obtain ⟨start, stop, right⟩ := t
    obtain ⟨ht, hrest⟩ := List.forall_mem_cons.1 hall
    have hcons : ∀ a, intervalSum e ((start, stop, right) :: rest) a =
        intervalAt e start (stop - start) right a + intervalSum e rest a := fun a => by simp [intervalSum]
    rw [mergeUnitIntervals] at h
    rcases List.eq_nil_or_concat merged with rfl | ⟨before, last, rfl⟩
    · obtain ⟨hl, hsum⟩ := ih hrest (hmerged.concat ht (by simp)) h
      refine ⟨hl, fun a => ?_⟩
      rw [hsum, hcons, intervalSum_append, intervalSum_singleton, add_assoc]
    · obtain ⟨previousStart, previousEnd, previousRight⟩ := last
      rw [List.concat_eq_append] at h hmerged ⊢
      rw [List.getLast?_concat] at h
      simp only at h
      by_cases hoverlap : start < previousEnd
      · rw [if_pos hoverlap] at h
        cases h
      · rw [if_neg hoverlap] at h
        obtain ⟨len, hlen, hadd⟩ := bind_eq_ok.1 h
        obtain ⟨rightEnd, hend, hmore⟩ := bind_eq_ok.1 hadd
        obtain ⟨hle, hlenEq⟩ := checkedSub_eq_some.1 (okOr_eq_ok.1 hlen)
        obtain ⟨-, hendEq⟩ := checkedAdd_eq_some.1 (okOr_eq_ok.1 hend)
        rw [hlenEq] at hendEq
        rw [hendEq] at hmore
        obtain ⟨hbefore, -, hlast⟩ := List.pairwise_append.1 hmerged.apart
        have hbeforeOk : Ordered n before := ⟨fun s hs => hmerged.inside s (List.mem_append_left _ hs), hbefore⟩
        have hbeforeEnd : ∀ s ∈ before, s.2.1 ≤ previousStart := fun s hs => hlast s hs _ (List.mem_singleton.2 rfl)
        by_cases hjoin : start = previousEnd ∧ right = previousRight + (previousEnd - previousStart)
        · rw [if_pos hjoin, List.dropLast_concat] at hmore
          obtain ⟨hjoinLeft, hjoinRight⟩ := hjoin
          subst hjoinLeft hjoinRight
          have hjoined : Inside n (previousStart, stop, previousRight) := ⟨hle.trans ht.1, ht.2⟩
          obtain ⟨hl, hsum⟩ := ih hrest (hbeforeOk.concat hjoined hbeforeEnd) hmore
          refine ⟨hl, fun a => ?_⟩
          have hmerge : intervalAt e previousStart (start - previousStart) previousRight a +
              intervalAt e start (stop - start) (previousRight + (start - previousStart)) a =
                intervalAt e previousStart (stop - previousStart) previousRight a := intervalAt_merge hle ht.1 a
          rw [hsum, hcons, intervalSum_append, intervalSum_append, intervalSum_singleton, intervalSum_singleton]
          simp only
          rw [← hmerge]
          ring
        · rw [if_neg hjoin] at hmore
          have hafter : ∀ s ∈ before ++ [(previousStart, previousEnd, previousRight)], s.2.1 ≤ start := by
            intro s hs
            rcases List.mem_append.1 hs with hs | hs
            · have := hbeforeEnd s hs
              omega
            · obtain rfl := List.mem_singleton.1 hs
              exact not_lt.1 hoverlap
          obtain ⟨hl, hsum⟩ := ih hrest (hmerged.concat ht hafter) hmore
          refine ⟨hl, fun a => ?_⟩
          rw [hsum, hcons, intervalSum_append, intervalSum_singleton, add_assoc]

/-! ### The interval path -/

def Holds (output : List F) (n : ℕ) (value : ℕ → F) : Prop := output.length = n ∧ ∀ a < n, output.getD a 0 = value a

variable [DecidableEq F] {rt : Runtime} {w : OffsetEqWindow F}

/-- The window reads the values `e` at every machine address. -/
structure OffsetEqWindow.Values (w : OffsetEqWindow F) (e : ℕ → F) : Prop where
  split : w.Split
  lowBits_lt : w.lowBits < 64
  eval : ∀ right < 2 ^ 64, w.eval right = e right

theorem fillInterval_spec (hw : w.Values e) {len : ℕ} (h : w.fillInterval start len = .ok values) :
    values.length = len ∧ ∀ k < len, values.getD k 0 = e (start + k) := by
  have hend : start + len < 2 ^ 64 := by
    obtain ⟨_, hadd, -⟩ := bind_eq_ok.1 h
    exact (checkedAdd_eq_some.1 (okOr_eq_ok.1 hadd)).1
  rw [OffsetEqWindow.fillInterval_eq hw.split hend] at h
  cases h
  refine ⟨by simp [OffsetEqWindow.values], fun k hk => ?_⟩
  rw [OffsetEqWindow.values, List.getD_eq_getElem _ _ (by simpa using hk)]
  simp [hw.eval (start + k) (by omega)]

/-- **Filling a slice of zeros** adds an interval. -/
theorem fill_add (hw : w.Values e) {left len right : ℕ} (h : w.fillInterval right len = .ok values)
    (hle : left + len ≤ output.length) (hzero : ∀ a, left ≤ a → a < left + len → output.getD a 0 = 0) :
    (writeSlice output left values).length = output.length ∧
      ∀ a, (writeSlice output left values).getD a 0 = output.getD a 0 + intervalAt e left len right a := by
  obtain ⟨hlen, hvalues⟩ := fillInterval_spec hw h
  rw [← hlen] at hle
  refine ⟨writeSlice_length hle, fun a => ?_⟩
  rw [writeSlice_getD hle, hlen, intervalAt]
  by_cases ha : left ≤ a ∧ a < left + len
  · rw [if_pos ha, if_pos ha, hvalues _ (by omega), hzero a ha.1 ha.2, zero_add]
  · rw [if_neg ha, if_neg ha, add_zero]

/-- **The family loop** collects the weights of its families as intervals. -/
theorem collectUnitIntervals_spec : ∀ {families : List (EqPairTensorFamily F)} {work : ℕ} {intervals l : List (ℕ × ℕ × ℕ)},
    collectUnitIntervals n families work intervals = .ok (some l) →
    ∃ new, l = intervals ++ new ∧ (∀ t ∈ new, Inside n t) ∧ ∀ a, intervalSum e new a = leftWeight e families a := by
  intro families
  induction families with
  | nil =>
    intro work intervals l h
    obtain rfl := Option.some.inj (Except.ok.inj h)
    exact ⟨[], by simp, by simp, fun a => rfl⟩
  | cons family families ih =>
    intro work intervals l h
    rw [collectUnitIntervals] at h
    by_cases hscalar : family.scalar = 0
    · rw [if_pos hscalar] at h
      obtain ⟨new, hl, hinside, hsum⟩ := ih h
      refine ⟨new, hl, hinside, fun a => ?_⟩
      rw [hsum, leftWeight, leftWeight, List.map_cons, List.sum_cons, leftWeight_of_scalar_zero hscalar, zero_add]
    · rw [if_neg hscalar] at h
      cases haxis : contiguousUnit family.axes with
      | none =>
        rw [haxis] at h
        cases h
      | some axis =>
        rw [haxis] at h
        simp only at h
        by_cases hone : family.scalar = 1
        · rw [if_neg (not_not.2 hone)] at h
          simp only [bind_eq_ok] at h
          obtain ⟨leftEnd, hend, _, hle, _, _, h⟩ := h
          obtain ⟨-, rfl⟩ := checkedAdd_eq_some.1 (okOr_eq_ok.1 hend)
          obtain ⟨new, hl, hinside, hsum⟩ := ih h
          refine ⟨(family.leftOffset, family.leftOffset + axis.len, family.rightOffset) :: new, by simp [hl], ?_, fun a => ?_⟩
          · exact List.forall_mem_cons.2 ⟨⟨Nat.le_add_right _ _, ensure_eq_ok.1 hle⟩, hinside⟩
          · rw [leftWeight, List.map_cons, List.sum_cons, leftWeight_interval hone haxis, ← leftWeight, ← hsum]
            simp [intervalSum]
        · rw [if_pos hone] at h
          cases h

theorem fillUnitIntervals_spec (hw : w.Values e) (hl : Ordered n l)
    (h : l.foldlM (fillUnitInterval w) (List.replicate n 0) = .ok output) : Holds output n (intervalSum e l) := by
  refine foldlM_passes (P := fun made output => Holds output n (intervalSum e made)) ?_ ⟨by simp, fun a _ => ?_⟩ h
  · intro made t rest output output' hsplit hmade hstep
    obtain ⟨hlen, hvalue⟩ := hmade
    have hfill : (do
        ensure (t.1 ≤ t.2.1 ∧ t.2.1 ≤ output.length) (.internal "merged tensor interval exceeds the output")
        let values ← w.fillInterval t.2.2 (t.2.1 - t.1)
        return writeSlice output t.1 values) = .ok output' := hstep
    simp only [bind_eq_ok] at hfill
    obtain ⟨_, hbounds, values, hvalues, hfill⟩ := hfill
    obtain ⟨hle, hstop⟩ := ensure_eq_ok.1 hbounds
    -- the intervals made so far end before this one starts
    have hbefore : ∀ s ∈ made, s.2.1 ≤ t.1 := by
      have hapart := hl.apart
      rw [hsplit] at hapart
      exact fun s hs => (List.pairwise_append.1 hapart).2.2 s hs t List.mem_cons_self
    have hzero : ∀ a, t.1 ≤ a → a < t.1 + (t.2.1 - t.1) → output.getD a 0 = 0 := by
      intro a ha hend
      rw [hvalue a (by omega), intervalSum]
      apply List.sum_eq_zero
      intro x hx
      obtain ⟨s, hs, rfl⟩ := List.mem_map.1 hx
      have := hbefore s hs
      rw [intervalAt, if_neg (by omega)]
    obtain ⟨hlen', hvalue'⟩ := fill_add hw hvalues (by omega) hzero
    rw [← pure_eq_ok.1 hfill]
    refine ⟨hlen'.trans hlen, fun a ha => ?_⟩
    rw [hvalue', hvalue a ha, intervalSum_append, intervalSum_singleton]
  · simp [intervalSum, List.getD_eq_getElem?_getD, List.getElem?_replicate]
    split <;> rfl

/-- **The interval path is exact.** -/
theorem materializeDisjointUnitIntervals_exact (hw : w.Values e) {families : List (EqPairTensorFamily F)}
    (h : materializeDisjointUnitIntervals rt w families n = .ok (some output)) : Holds output n (leftWeight e families) := by
  unfold materializeDisjointUnitIntervals at h
  simp only [bind_eq_ok] at h
  obtain ⟨_, _, collected, hcoll, h⟩ := h
  cases collected with
  | none => cases h
  | some intervals =>
    obtain ⟨merged, hmerged, h⟩ := bind_eq_ok.1 h
    cases merged with
    | none => cases h
    | some l =>
      obtain ⟨filled, hfilled, h⟩ := bind_eq_ok.1 h
      obtain rfl := Option.some.inj (pure_eq_ok.1 h)
      obtain ⟨new, hnew, hinside, hsum⟩ := collectUnitIntervals_spec (e := e) hcoll
      rw [List.nil_append] at hnew
      subst hnew
      have hperm := List.mergeSort_perm intervals fun a b => decide (a.1 ≤ b.1)
      obtain ⟨hordered, hmergedSum⟩ := mergeUnitIntervals_spec (e := e) (fun t ht => hinside t (hperm.mem_iff.1 ht)) ⟨by simp, .nil⟩ hmerged
      obtain ⟨hlen, hvalue⟩ := fillUnitIntervals_spec hw hordered hfilled
      refine ⟨hlen, fun a ha => ?_⟩
      have hsorted : intervalSum e (intervals.mergeSort fun a b => decide (a.1 ≤ b.1)) a = intervalSum e intervals a := (hperm.map _).sum_eq
      rw [hvalue a ha, hmergedSum, hsorted, hsum]
      simp [intervalSum]

end Akita.OffsetEq
