import Akita.Proof.TensorSum

/-!
# The residual of a dense destination

What the axes beside the destination axis add up to on the right, by the table and by the walk.

* `visitResidualTerms_spec`: the leaves of the walk are the terms of the residual sum.
* `residualSum_of_not_live`: a view without live terms puts nothing anywhere.
* `evaluateResidual_spec`: both kinds of residual contract to the residual sum.
* `Prepared.evaluate_spec`: a separated residual is the table's sum.
-/

namespace Akita.OffsetEq

open Lib Finset

section

variable {F : Type} {start len : ℕ}

/-! ## Axes beside the destination -/

theorem checkedAxisOffset_eq_ok {base stride coordinate offset : ℕ} {side : String} :
    checkedAxisOffset base stride coordinate side = .ok offset ↔
      base + stride * coordinate < 2 ^ 64 ∧ offset = base + stride * coordinate := by
  unfold checkedAxisOffset Checked.mulAdd
  simp only [okOr_eq_ok, option_some, checked_some, usizeBits]
  constructor
  · rintro ⟨_, ⟨-, rfl⟩, hlt, rfl⟩
    exact ⟨by omega, add_comm _ _⟩
  · rintro ⟨hlt, rfl⟩
    exact ⟨_, ⟨by omega, rfl⟩, by omega, add_comm _ _⟩

/-- A walk without one axis sums over the others. -/
def remaining (d : ℕ) (axes : List (EqPairTensorAxis F)) (index : ℕ) : List (EqPairTensorAxis F) :=
  if d < index then axes else axes.eraseIdx (d - index)

theorem remaining_zero (d : ℕ) (axes : List (EqPairTensorAxis F)) : remaining d axes 0 = axes.eraseIdx d := by
  simp [remaining]

theorem remaining_nil (d index : ℕ) : remaining d ([] : List (EqPairTensorAxis F)) index = [] := by
  simp [remaining]

theorem remaining_cons_self (axis : EqPairTensorAxis F) (axes : List (EqPairTensorAxis F)) (d : ℕ) :
    remaining d (axis :: axes) d = remaining d axes (d + 1) := by
  simp [remaining]

theorem remaining_cons_of_ne {d index : ℕ} (h : index ≠ d) (axis : EqPairTensorAxis F) (axes : List (EqPairTensorAxis F)) :
    remaining d (axis :: axes) index = axis :: remaining d axes (index + 1) := by
  unfold remaining
  by_cases hlt : d < index
  · rw [if_pos hlt, if_pos (by omega)]
  · obtain ⟨k, hk⟩ : ∃ k, d - index = k + 1 := ⟨d - index - 1, by omega⟩
    rw [if_neg hlt, if_neg (by omega), hk, List.eraseIdx_cons_succ]
    congr 2
    omega

variable {w : OffsetEqWindow F}

theorem OffsetEqWindow.Split.lowMask_eq (hw : w.Split) : w.lowMask = 2 ^ w.lowBits - 1 := by
  have hpos := Nat.two_pow_pos w.lowBits
  have hself := hw.mask w.lowMask
  have hlast := hw.mask (2 ^ w.lowBits - 1)
  have hle : (2 ^ w.lowBits - 1) &&& w.lowMask ≤ w.lowMask := Nat.and_le_right
  rw [Nat.and_self] at hself
  rw [Nat.mod_eq_of_lt (by omega)] at hlast
  omega

theorem validates_spec {origin lowOrigin span : ℕ} {residual : List (ℕ × F)}
    (h : SeparatedResidual.validates w origin lowOrigin span residual = true) :
    ∀ t ∈ residual, (origin + t.1) &&& w.lowMask = lowOrigin ∧ origin + t.1 + span < 2 ^ 64 := by
  intro t ht
  have hone := List.all_eq_true.1 h t ht
  cases hadd : checkedAdd usizeBits origin t.1 with
  | none => simp [hadd] at hone
  | some index =>
    obtain ⟨-, rfl⟩ := checkedAdd_eq_some.1 hadd
    simp only [hadd, Bool.and_eq_true, decide_eq_true_eq, Option.isSome_iff_exists, checkedAdd_eq_some] at hone
    obtain ⟨hlow, _, hlt, -⟩ := hone
    exact ⟨hlow, hlt⟩

variable [Field F] {e f : ℕ → F}

/-! ## Terms -/

/-- The sum of `(right offset, weight)` terms. -/
def termSum (f : ℕ → F) (terms : List (ℕ × F)) : F := (terms.map fun t => t.2 * f t.1).sum

@[simp] theorem termSum_nil : termSum f [] = 0 := rfl

@[simp] theorem termSum_cons (t : ℕ × F) (terms : List (ℕ × F)) : termSum f (t :: terms) = t.2 * f t.1 + termSum f terms := by
  simp [termSum]

variable {terms : List (ℕ × F)} {view : DenseLeftTensorView F} {axis : EqPairTensorAxis F}

theorem termSum_congr {g : ℕ → F} (h : ∀ t ∈ terms, f t.1 = g t.1) : termSum f terms = termSum g terms := by
  unfold termSum
  congr 1
  exact List.map_congr_left fun t ht => by rw [h t ht]

theorem termSum_mul_left (c : F) (terms : List (ℕ × F)) : termSum (fun r => c * f r) terms = c * termSum f terms := by
  induction terms with
  | nil => simp
  | cons t terms ih =>
    rw [termSum_cons, termSum_cons, ih]
    ring

theorem termSum_flatten (l : List (List (ℕ × F))) : termSum f l.flatten = (l.map (termSum f)).sum := by
  simp only [termSum, List.map_flatten, List.sum_flatten, List.map_map]
  rfl

theorem residualSum_eq_zero {axes : List (EqPairTensorAxis F)} (h : ∃ axis ∈ axes, ∀ i < axis.len, axis.weightAt i = 0) (right : ℕ) :
    residualSum f axes right = 0 := by
  induction axes generalizing right with
  | nil => simp at h
  | cons axis axes ih =>
    rw [residualSum_cons]
    obtain ⟨dead, hmem, hzero⟩ := h
    apply sum_eq_zero
    intro i hi
    rcases List.mem_cons.1 hmem with rfl | hmem
    · rw [hzero i (mem_range.1 hi), zero_mul]
    · rw [ih ⟨dead, hmem, hzero⟩, mul_zero]

theorem bitProduct_zero (factors : List ((F × F) × ℕ)) (coordinate : ℕ) (h : ∃ p ∈ factors, p.1.1 = 0 ∧ p.1.2 = 0) (weight : F) :
    factors.foldl (fun weight p => weight * if (coordinate >>> p.2) &&& 1 = 1 then p.1.2 else p.1.1) weight = 0 := by
  have hprod : ∀ (l : List ((F × F) × ℕ)) (weight : F),
      l.foldl (fun weight p => weight * if (coordinate >>> p.2) &&& 1 = 1 then p.1.2 else p.1.1) weight =
        weight * (l.map fun p => if (coordinate >>> p.2) &&& 1 = 1 then p.1.2 else p.1.1).prod := by
    intro l
    induction l with
    | nil => intro weight; simp
    | cons p l ih =>
      intro weight
      rw [List.foldl_cons, ih, List.map_cons, List.prod_cons, mul_assoc]
  obtain ⟨p, hp, hzero, hone⟩ := h
  rw [hprod, List.prod_eq_zero, mul_zero]
  refine List.mem_map.2 ⟨p, hp, ?_⟩
  rw [hzero, hone, ite_self]

/-! ## Dense destinations -/

/-- A view of a dense destination: `len` coordinates from `start` on, through one unit axis. -/
structure DenseLeftTensorView.Shape (view : DenseLeftTensorView F) (start len : ℕ) (axis : EqPairTensorAxis F) : Prop where
  get : view.family.axes[view.destinationAxis]? = some axis
  leftOffset : view.family.leftOffset = start
  len_eq : axis.len = len
  isUnit : axis.isUnit = true
  leftStride : axis.leftStride = 1
  others : ∀ other ∈ view.residualAxes, other.leftStride = 0

theorem DenseLeftTensorView.Shape.leftWeight (h : view.Shape start len axis) (e : ℕ → F) (a : ℕ) :
    view.family.leftWeight e a = if start ≤ a ∧ a < start + len then
      view.family.scalar * residualSum e view.residualAxes (view.family.rightOffset + axis.rightStride * (a - start)) else 0 := by
  rw [leftWeight_eq, leftSum_dense h.get h.isUnit h.leftStride h.others, h.leftOffset, h.len_eq, mul_ite, mul_zero]
  rfl

theorem DenseLeftTensorView.Shape.leftWeight_add (h : view.Shape start len axis) (e : ℕ → F) {k : ℕ} (hk : k < len) :
    view.family.leftWeight e (start + k) =
      view.family.scalar * residualSum e view.residualAxes (view.family.rightOffset + axis.rightStride * k) := by
  rw [h.leftWeight, if_pos (by omega), Nat.add_sub_cancel_left]

/-- A residual is walked, or its table adds up to the residual sum. -/
def DenseLeftTensorView.Exact (view : DenseLeftTensorView F) : Prop := ∀ terms, view.residual = .table terms →
    ∀ f : ℕ → F, view.family.scalar * termSum f terms = view.family.scalar * residualSum f view.residualAxes 0

/-- The table of an exact view, from any address on. -/
theorem DenseLeftTensorView.Exact.sum (h : view.Exact) (hterms : view.residual = .table terms) (e : ℕ → F) (base : ℕ) :
    view.family.scalar * termSum (fun r => e (base + r)) terms = view.family.scalar * residualSum e view.residualAxes base := by
  rw [h terms hterms, ← residualSum_shift, add_zero]

section weights

variable [DecidableEq F] {axis : EqPairTensorAxis F} {view : DenseLeftTensorView F} {value : F} {separated : SeparatedResidual F}

@[simp] theorem scaleWeight_eq (weight factor : F) : scaleWeight weight factor = weight * factor := by
  unfold scaleWeight
  by_cases hfactor : factor = 1
  · rw [if_pos hfactor, hfactor, mul_one]
  · rw [if_neg hfactor]
    by_cases hweight : weight = 1
    · rw [if_pos hweight, hweight, one_mul]
    · rw [if_neg hweight]

@[simp] theorem weighted_eq (weight value : F) : weighted weight value = weight * value := by
  unfold weighted
  split
  · next h => rw [h, one_mul]
  · rfl

/-- **The walk** lists the terms of the residual sum, at machine addresses. -/
theorem visitResidualTerms_spec {d : ℕ} : ∀ {axes : List (EqPairTensorAxis F)} {index offset : ℕ} {weight : F} {leaves : List (ℕ × F)},
    visitResidualTerms d axes index offset weight = .ok leaves →
    (∀ f, termSum f leaves = weight * residualSum f (remaining d axes index) offset) ∧
      (offset < 2 ^ 64 → ∀ t ∈ leaves, t.1 < 2 ^ 64) := by
  intro axes
  induction axes with
  | nil =>
    intro index offset weight leaves h
    cases h
    refine ⟨fun f => ?_, fun hlt t ht => ?_⟩
    · rw [remaining_nil, termSum_cons, termSum_nil, add_zero]
      rfl
    · obtain rfl := List.mem_singleton.1 ht
      exact hlt
  | cons axis axes ih =>
    intro index offset weight leaves h
    rw [visitResidualTerms] at h
    by_cases hindex : index = d
    · rw [if_pos hindex] at h
      subst hindex
      rw [remaining_cons_self]
      exact ih h
    · rw [if_neg hindex] at h
      obtain ⟨parts, hparts, h⟩ := bind_eq_ok.1 h
      rw [← pure_eq_ok.1 h, remaining_cons_of_ne hindex]
      -- what one coordinate of the axis lists
      have hpart : ∀ coordinate part, (do
          let factor ← okOr (axis.coordinateWeight coordinate) (.invalidInput "residual tensor axis coordinate weight is absent")
          if factor = 0 then return []
          else do
            let next ← checkedAxisOffset offset axis.rightStride coordinate "right"
            visitResidualTerms d axes (index + 1) next (scaleWeight weight factor)) = .ok part →
          (∀ f, termSum f part = weight * (axis.weightAt coordinate *
            residualSum f (remaining d axes (index + 1)) (offset + axis.rightStride * coordinate))) ∧ ∀ t ∈ part, t.1 < 2 ^ 64 := by
        intro coordinate part hcoord
        obtain ⟨factor, hfactor, hcoord⟩ := bind_eq_ok.1 hcoord
        have hweight : axis.weightAt coordinate = factor := by rw [EqPairTensorAxis.weightAt, okOr_eq_ok.1 hfactor]; rfl
        by_cases hzero : factor = 0
        · rw [if_pos hzero] at hcoord
          rw [← pure_eq_ok.1 hcoord]
          exact ⟨fun f => by rw [hweight, hzero]; simp, by simp⟩
        · rw [if_neg hzero] at hcoord
          obtain ⟨next, hnext, hrest⟩ := bind_eq_ok.1 hcoord
          obtain ⟨hlt, rfl⟩ := checkedAxisOffset_eq_ok.1 hnext
          obtain ⟨hsum, hbound⟩ := ih hrest
          exact ⟨fun f => by rw [hsum, scaleWeight_eq, hweight, mul_assoc], hbound hlt⟩
      refine ⟨fun f => ?_, fun _ t ht => ?_⟩
      · rw [termSum_flatten, map_of_mapM (fun coordinate part _ hf => (hpart coordinate part hf).1 f) hparts, residualSum_cons,
          ← sum_map_range, List.sum_map_mul_left]
      · obtain ⟨part, hmem, ht⟩ := List.mem_flatten.1 ht
        obtain ⟨coordinate, -, hcoord⟩ := exists_of_mem_mapM hparts hmem
        exact (hpart coordinate part hcoord).2 t ht

/-! ## Live terms -/

theorem liveBits_pos {factors : List (F × F)} {count : ℕ} (h : ∀ factor ∈ factors, factor.1 = 0 → factor.2 ≠ 0) (hcount : 0 < count) :
    0 < factors.foldl (fun count factors => count * [factors.1, factors.2].countP (· ≠ 0)) count := by
  induction factors generalizing count with
  | nil => exact hcount
  | cons factor factors ih =>
    obtain ⟨hfactor, hfactors⟩ := List.forall_mem_cons.1 h
    refine ih hfactors (Nat.mul_pos hcount (List.countP_pos_iff.2 ?_))
    by_cases hzero : factor.1 = 0
    · exact ⟨factor.2, by simp, by simpa using hfactor hzero⟩
    · exact ⟨factor.1, by simp, by simpa using hzero⟩

theorem weightAt_of_nonzeroLen (h : axis.nonzeroLen = .ok 0) {i : ℕ} (hi : i < axis.len) : axis.weightAt i = 0 := by
  obtain ⟨_, hvalid, h⟩ := bind_eq_ok.1 h
  have hcount := pure_eq_ok.1 h
  rw [EqPairTensorAxis.weightAt, EqPairTensorAxis.coordinateWeight, if_neg (by omega)]
  cases hweights : axis.weights with
  | unit =>
    rw [hweights] at hcount
    simp only at hcount
    omega
  | dense weights =>
    rw [hweights] at hcount
    simp only at hcount ⊢
    cases hget : weights[i]? with
    | none => rfl
    | some weight =>
      have hzero := List.countP_eq_zero.1 hcount weight (List.mem_of_getElem? hget)
      simpa using hzero
  | bitProduct factors =>
    rw [hweights] at hcount
    simp only at hcount ⊢
    rw [Option.getD_some]
    have hnone : ∃ factor ∈ factors, factor.1 = 0 ∧ factor.2 = 0 := by
      by_contra hlive
      push Not at hlive
      have := liveBits_pos hlive one_pos
      omega
    obtain ⟨factor, hmem, hzero⟩ := hnone
    obtain ⟨bit, hbit⟩ := List.getElem?_of_mem hmem
    exact bitProduct_zero _ _ ⟨(factor, bit), List.mem_zipIdx_iff_getElem?.mpr hbit, hzero⟩ _

/-- **A view without live terms** puts nothing anywhere. -/
theorem residualSum_of_not_live (h : view.liveResidualLen = .ok 0) (right : ℕ) :
    view.family.scalar * residualSum f view.residualAxes right = 0 := by
  unfold DenseLeftTensorView.liveResidualLen at h
  by_cases hscalar : view.family.scalar = 0
  · rw [hscalar, zero_mul]
  · rw [if_neg hscalar] at h
    have hdead : (0 : ℕ) = 0 → ∃ axis ∈ view.residualAxes, axis.nonzeroLen = .ok 0 := by
      refine foldlM_passes (P := fun made count => count = 0 → ∃ axis ∈ made, axis.nonzeroLen = .ok 0) ?_ (by simp) h
      intro made axis rest count count' _ hmade hstep hzero
      obtain ⟨live, hlive, hstep⟩ := bind_eq_ok.1 hstep
      obtain ⟨-, hprod⟩ := checkedMul_eq_some.1 (okOr_eq_ok.1 hstep)
      rw [hprod] at hzero
      rcases Nat.mul_eq_zero.1 hzero with hcount | hlen
      · obtain ⟨dead, hmem, hdead⟩ := hmade hcount
        exact ⟨dead, List.mem_append_left _ hmem, hdead⟩
      · exact ⟨axis, by simp, hlen ▸ hlive⟩
    obtain ⟨axis, hmem, hzero⟩ := hdead rfl
    rw [residualSum_eq_zero ⟨axis, hmem, fun i hi => weightAt_of_nonzeroLen hzero hi⟩, mul_zero]

/-! ## Contraction -/

/-- **Both kinds of residual** contract to the residual sum. -/
theorem evaluateResidual_spec (hw : w.Values e) (hview : view.Exact) {base : ℕ} (hbase : base < 2 ^ 64)
    (h : view.evaluateResidual w base = .ok value) : value = view.family.scalar * residualSum e view.residualAxes base := by
  unfold DenseLeftTensorView.evaluateResidual at h
  cases hresid : view.residual with
  | table terms =>
    rw [hresid] at h
    obtain ⟨sum, hsum, h⟩ := bind_eq_ok.1 h
    have hterms : sum = 0 + termSum (fun r => e (base + r)) terms := by
      refine foldlM_sum (fun value t value' _ hstep => ?_) hsum
      obtain ⟨index, hindex, hstep⟩ := bind_eq_ok.1 hstep
      obtain ⟨hlt, rfl⟩ := checkedAdd_eq_some.1 (okOr_eq_ok.1 hindex)
      rw [← pure_eq_ok.1 hstep, weighted_eq, hw.eval _ hlt]
    rw [← pure_eq_ok.1 h, weighted_eq, hterms, zero_add, hview.sum hresid]
  | streamed =>
    rw [hresid] at h
    by_cases hscalar : view.family.scalar = 0
    · rw [if_pos hscalar] at h
      rw [← pure_eq_ok.1 h, hscalar, zero_mul]
    · rw [if_neg hscalar] at h
      obtain ⟨leaves, hleaves, h⟩ := bind_eq_ok.1 h
      obtain ⟨hsum, hbound⟩ := visitResidualTerms_spec hleaves
      have hfold : ∀ (l : List (ℕ × F)) (value : F), (∀ t ∈ l, t.1 < 2 ^ 64) →
          l.foldl (fun value t => value + weighted t.2 (w.eval t.1)) value = value + termSum e l := by
        intro l
        induction l with
        | nil => intro value _; simp
        | cons t l ih =>
          intro value hl
          obtain ⟨ht, hl⟩ := List.forall_mem_cons.1 hl
          rw [List.foldl_cons, ih _ hl, weighted_eq, hw.eval _ ht, termSum_cons, add_assoc]
      rw [← pure_eq_ok.1 h, hfold leaves 0 (hbound hbase), zero_add, hsum, remaining_zero]
      rfl

/-! ## The separated residual -/

/-- What a separated residual was prepared from: a shared low address, and spans without a carry. -/
structure SeparatedResidual.Prepared (separated : SeparatedResidual F) (view : DenseLeftTensorView F) (w : OffsetEqWindow F)
    (span : ℕ) (terms : List (ℕ × F)) : Prop where
  origin : separated.origin = view.family.rightOffset
  low : ∀ t ∈ terms, (view.family.rightOffset + t.1) % 2 ^ w.lowBits = separated.lowOrigin
  noCarry : separated.lowOrigin + span < 2 ^ w.lowBits
  bound : ∀ t ∈ terms, view.family.rightOffset + t.1 + span < 2 ^ 64
  high : separated.highSum = termSum (fun r => w.evalHigh ((view.family.rightOffset + r) >>> w.lowBits)) terms

theorem prepare_spec (hw : w.Split) (haxis : view.family.axes[view.destinationAxis]? = some axis)
    (h : SeparatedResidual.prepare view w = .ok (some separated)) :
    ∃ terms, view.residual = .table terms ∧ separated.Prepared view w (axis.rightStride * (axis.len - 1)) terms := by
  unfold SeparatedResidual.prepare at h
  cases hresid : view.residual with
  | streamed =>
    rw [hresid] at h
    cases h
  | table terms =>
    rw [hresid] at h
    simp only at h
    by_cases hshort : terms.length < 2
    · rw [if_pos hshort] at h
      cases h
    · rw [if_neg hshort, haxis] at h
      have h := pure_eq_ok.1 h
      simp only [option_some, checked_some] at h
      obtain ⟨last, ⟨-, rfl⟩, span, ⟨-, rfl⟩, first, hfirst, index, ⟨-, rfl⟩, stop, ⟨-, rfl⟩, h⟩ := h
      by_cases hdecline : ((view.family.rightOffset + first.1) &&& w.lowMask) + axis.rightStride * (axis.len - 1) > w.lowMask ∨
          SeparatedResidual.validates w view.family.rightOffset ((view.family.rightOffset + first.1) &&& w.lowMask)
            (axis.rightStride * (axis.len - 1)) terms = false
      · rw [if_pos hdecline] at h
        cases h
      · rw [if_neg hdecline] at h
        obtain ⟨hspan, hvalid⟩ := not_or.1 hdecline
        have hterm := validates_spec (Bool.eq_true_of_not_eq_false hvalid)
        cases h
        have hpos := Nat.two_pow_pos w.lowBits
        refine ⟨terms, rfl, rfl, fun t ht => ?_, ?_, fun t ht => (hterm t ht).2, ?_⟩
        · rw [← hw.mask]
          exact (hterm t ht).1
        · have hmask := hw.lowMask_eq
          simp only
          omega
        · simp only [weighted_eq]
          have hfold : ∀ (l : List (ℕ × F)) (sum : F),
              l.foldl (fun sum t => sum + t.2 * w.evalHigh ((view.family.rightOffset + t.1) >>> w.lowBits)) sum =
                sum + termSum (fun r => w.evalHigh ((view.family.rightOffset + r) >>> w.lowBits)) l := by
            intro l
            induction l with
            | nil => intro sum; simp
            | cons t l ih =>
              intro sum
              rw [List.foldl_cons, ih, termSum_cons, add_assoc]
          rw [hfold, zero_add]

/-- **A separated residual** is the table's sum at every coordinate of the destination. -/
theorem SeparatedResidual.Prepared.evaluate_spec (hw : w.Values e) {span : ℕ}
    (h : separated.Prepared view w span terms) {step : ℕ} (hstep : step ≤ span)
    (hvalue : separated.evaluate w (view.family.rightOffset + step) = .ok value) :
    value = termSum (fun r => e (view.family.rightOffset + step + r)) terms := by
  unfold SeparatedResidual.evaluate at hvalue
  simp only [bind_eq_ok] at hvalue
  obtain ⟨index, hindex, low, hlow, hvalue⟩ := hvalue
  have hindexEq : index = separated.lowOrigin + step := by
    simp only [okOr_eq_ok, option_some, checkedSub_eq_some, Checked.sum_eq_some, h.origin] at hindex
    obtain ⟨_, ⟨-, rfl⟩, -, rfl⟩ := hindex
    simp
  have hlowEq : low = w.eqLow.getD (separated.lowOrigin + step) 0 := by
    rw [List.getD_eq_getElem?_getD, ← hindexEq, okOr_eq_ok.1 hlow]
    rfl
  rw [← pure_eq_ok.1 hvalue, h.high, ← termSum_mul_left]
  refine termSum_congr fun t ht => ?_
  have hcarry := h.noCarry
  have hbound := h.bound t ht
  -- the span stays inside the low block of the residual
  have hread : w.eval (view.family.rightOffset + t.1 + step) = _ := OffsetEqWindow.eval_add hw.split (by rw [h.low t ht]; omega)
  rw [h.low t ht, ← hlowEq, hw.eval _ (by omega)] at hread
  rw [← hread]
  congr 1
  omega

end weights

end

/-!
## Runs through the low table

A residual term adds one coefficient times the equality values of an arithmetic progression of addresses, run by
run through the low table.

* `accumulateRun_spec`: one term adds its coefficient times the value of every address of its progression.
* `accumulateView_spec`: one view adds its weight at every coordinate of the destination.
-/

variable {F : Type} [Field F] [DecidableEq F] {e : ℕ → F} {w : OffsetEqWindow F} {bits index destinationLen start len : ℕ}
  {highValues out : List F} {highValue coefficient : F} {view : DenseLeftTensorView F} {axis : EqPairTensorAxis F}

theorem run_fits {low mask k : ℕ} (hlow : low ≤ mask) (hk : k < ((mask - low) >>> bits) + 1) : low + 2 ^ bits * k ≤ mask := by
  rw [Nat.shiftRight_eq_div_pow] at hk
  have hmul : 2 ^ bits * k ≤ 2 ^ bits * ((mask - low) / 2 ^ bits) := Nat.mul_le_mul_left _ (by omega)
  have hdiv := Nat.mul_div_le (mask - low) (2 ^ bits)
  omega

section

variable (hw : w.Split) (hhigh : w.eqHigh = some highValues)

include hw hhigh

theorem eval_run {k : ℕ} (bits : ℕ)
    (hvalue : highValues[index >>> w.lowBits]? = some highValue) (hk : k < ((w.lowMask - index % 2 ^ w.lowBits) >>> bits) + 1) :
    w.eqLow[index % 2 ^ w.lowBits + k * 2 ^ bits]? = some (w.eqLow.getD (index % 2 ^ w.lowBits + 2 ^ bits * k) 0) ∧
      w.eval (index + 2 ^ bits * k) = w.eqLow.getD (index % 2 ^ w.lowBits + 2 ^ bits * k) 0 * highValue := by
  have hmask := hw.lowMask_eq
  have hfits := run_fits (show index % 2 ^ w.lowBits ≤ w.lowMask by omega) hk
  have hlt : index % 2 ^ w.lowBits + 2 ^ bits * k < w.eqLow.length := by
    rw [hw.low_length]
    omega
  have hhighValue : w.evalHigh (index >>> w.lowBits) = highValue := by
    unfold OffsetEqWindow.evalHigh
    simp only [hhigh]
    rw [List.getD_eq_getElem?_getD, hvalue]
    rfl
  constructor
  · rw [mul_comm k, List.getD_eq_getElem _ _ hlt]
    exact List.getElem?_eq_getElem hlt
  · rw [OffsetEqWindow.eval_add hw (by omega), hhighValue]

/-- **One run** adds the coefficient times the value of each of its addresses, also where the scale is zero. -/
theorem run_spec (hvalue : highValues[index >>> w.lowBits]? = some highValue)
    {run run' : List F} (hrun : run.length ≤ ((w.lowMask - index % 2 ^ w.lowBits) >>> bits) + 1)
    (h : (if coefficient * highValue = 0 then pure run
      else do
        ensure (index % 2 ^ w.lowBits ≤ w.eqLow.length) (.internal "tensor run low index exceeds table")
        return run.zipIdx.map fun p =>
          match w.eqLow[index % 2 ^ w.lowBits + p.2 * 2 ^ bits]? with
          | some lowValue => p.1 + lowValue * (coefficient * highValue)
          | none => p.1 : Result (List F)) = .ok run') :
    run' = (List.range run.length).map fun k => run.getD k 0 + coefficient * w.eval (index + 2 ^ bits * k) := by
  have hread : ∀ k < run.length, _ := fun k hk => eval_run (k := k) hw hhigh bits hvalue (by omega)
  by_cases hscale : coefficient * highValue = 0
  · rw [if_pos hscale] at h
    rw [← pure_eq_ok.1 h]
    apply List.ext_getElem
    · simp
    · intro k h1 h2
      rw [List.getElem_map, List.getElem_range, List.getD_eq_getElem _ _ h1, (hread k h1).2, mul_left_comm, hscale, mul_zero, add_zero]
  · rw [if_neg hscale] at h
    obtain ⟨_, _, h⟩ := bind_eq_ok.1 h
    rw [← pure_eq_ok.1 h]
    apply List.ext_getElem
    · simp
    · intro k h1 h2
      have hk : k < run.length := by simpa using h2
      simp only [List.getElem_map, List.getElem_zipIdx, List.getElem_range, zero_add, (hread k hk).1, (hread k hk).2]
      rw [List.getD_eq_getElem _ _ hk]
      ring

/-- **The run loop** adds the coefficient times the value of every address of the progression. The induction is on
the rounds left: each takes what is left of a low block, or of the destination. -/
theorem accumulateRun_spec : ∀ {rounds index : ℕ} {remaining out : List F}, remaining.length ≤ rounds →
      accumulateRun w highValues (2 ^ bits) bits coefficient rounds index remaining = .ok out →
      out.length = remaining.length ∧
        ∀ k < remaining.length, out.getD k 0 = remaining.getD k 0 + coefficient * w.eval (index + 2 ^ bits * k) := by
  intro rounds
  induction rounds with
  | zero =>
    intro index remaining out hrounds h
    cases h
    exact ⟨rfl, fun k hk => by omega⟩
  | succ rounds ih =>
    intro index remaining out hrounds h
    rw [accumulateRun] at h
    by_cases hnil : remaining = []
    · rw [if_pos hnil] at h
      cases h
      rw [hnil]
      exact ⟨rfl, fun k hk => absurd hk (Nat.not_lt_zero k)⟩
    · rw [if_neg hnil, hw.mask] at h
      have hpos := List.length_pos_iff.2 hnil
      set low := index % 2 ^ w.lowBits with hlowDef
      cases hvalue : highValues[index >>> w.lowBits]? with
      | none =>
        -- past the high table there is nothing left of the domain
        rw [hvalue] at h
        cases h
        have hpast := List.getElem?_eq_none_iff.1 hvalue
        refine ⟨rfl, fun k _ => ?_⟩
        rw [OffsetEqWindow.eval_past hhigh, mul_zero, add_zero]
        refine hpast.trans ?_
        rw [Nat.shiftRight_eq_div_pow, Nat.shiftRight_eq_div_pow]
        exact Nat.div_le_div_right (Nat.le_add_right _ _)
      | some highValue =>
        rw [hvalue] at h
        obtain ⟨run, hrun, h⟩ := bind_eq_ok.1 h
        set take := min (((w.lowMask - low) >>> bits) + 1) remaining.length with htake
        have htakePos : 0 < take := Nat.lt_min.2 ⟨Nat.succ_pos _, hpos⟩
        have htakeLen : (remaining.take take).length = take := by
          rw [List.length_take]
          omega
        have hscale : (if coefficient = 1 then highValue else coefficient * highValue) = coefficient * highValue := by
          split
          · next hone => rw [hone, one_mul]
          · rfl
        rw [hscale] at hrun
        have hrunEq := run_spec hw hhigh hvalue (by rw [htakeLen]; exact min_le_left _ _) hrun
        rw [htakeLen] at hrunEq
        have hget : ∀ k < take, (remaining.take take).getD k 0 = remaining.getD k 0 := by
          intro k hk
          rw [List.getD_eq_getElem?_getD, List.getElem?_take_of_lt hk, List.getD_eq_getElem?_getD]
        have hrunLen : run.length = take := by simp [hrunEq]
        have hrunGet : ∀ k < take, run.getD k 0 = remaining.getD k 0 + coefficient * w.eval (index + 2 ^ bits * k) := by
          intro k hk
          rw [← hget k hk, hrunEq, List.getD_eq_getElem _ _ (by simpa using hk), List.getElem_map, List.getElem_range]
        by_cases htail : remaining.drop take = []
        · rw [if_pos htail] at h
          have hall : take = remaining.length := by
            have := List.drop_eq_nil_iff.1 htail
            omega
          rw [← pure_eq_ok.1 h, ← hall]
          exact ⟨hrunLen, hrunGet⟩
        · rw [if_neg htail] at h
          simp only [bind_eq_ok] at h
          obtain ⟨next, hnext, tail, htailRun, h⟩ := h
          have hnextEq : next = index + 2 ^ bits * take := by
            simp only [okOr_eq_ok, option_some, checked_some] at hnext
            obtain ⟨_, ⟨-, rfl⟩, -, rfl⟩ := hnext
            rfl
          rw [hnextEq] at htailRun
          have hdropLen : (remaining.drop take).length = remaining.length - take := List.length_drop
          obtain ⟨htailLen, htailGet⟩ := ih (by omega) htailRun
          rw [← pure_eq_ok.1 h]
          refine ⟨by rw [List.length_append]; omega, fun k hk => ?_⟩
          rcases lt_or_ge k take with hlt | hge
          · rw [List.getD_append _ _ _ _ (by omega), hrunGet k hlt]
          · have hdropGet : (remaining.drop take).getD (k - take) 0 = remaining.getD k 0 := by
              rw [List.getD_eq_getElem?_getD, List.getElem?_drop, List.getD_eq_getElem?_getD]
              congr 2
              omega
            have hindex : index + 2 ^ bits * take + 2 ^ bits * (k - take) = index + 2 ^ bits * k := by
              rw [add_assoc, ← mul_add]
              congr 2
              omega
            rw [List.getD_append_right _ _ _ _ (by omega), hrunLen, htailGet _ (by omega), hdropGet, hindex]

end

/-! ### The views -/

/-- **What the admission says** about a view that is not zero. -/
theorem admitsRuns_spec (hw : w.Values e) (haxis : view.family.axes[view.destinationAxis]? = some axis)
    (hscalar : view.family.scalar ≠ 0) (h : admitsRuns w destinationLen view = .ok true) :
    ∃ terms bits, view.residual = .table terms ∧ axis.rightStride = 2 ^ bits ∧ trailingZeros axis.rightStride = bits ∧
      ∀ t ∈ terms, view.family.rightOffset + axis.rightStride * (axis.len - 1) + t.1 < 2 ^ 64 := by
  unfold admitsRuns at h
  rw [if_neg hscalar] at h
  cases hresid : view.residual with
  | streamed =>
    rw [hresid] at h
    cases h
  | table terms =>
    rw [hresid, haxis] at h
    have hshape : (if ¬ axis.rightStride.isPowerOfTwo ∨ axis.rightStride > w.eqLow.length / 8 ∨ axis.len ≠ destinationLen then
        return false
      else do
        let span ← okOr (checkedMul usizeBits axis.rightStride (axis.len - 1)) (.invalidInput "tensor run right span overflow")
        let last ← okOr (checkedAdd usizeBits view.family.rightOffset span) (.invalidInput "tensor run right offset overflow")
        terms.forM fun t => do
          let _ ← okOr (checkedAdd usizeBits last t.1) (.invalidInput "tensor run residual offset overflow")
        return true : Result Bool) = .ok true := h
    clear h
    by_cases hdecline : ¬ axis.rightStride.isPowerOfTwo ∨ axis.rightStride > w.eqLow.length / 8 ∨ axis.len ≠ destinationLen
    · rw [if_pos hdecline] at hshape
      cases pure_eq_ok.1 hshape
    · rw [if_neg hdecline] at hshape
      obtain ⟨span, hspan, hrest⟩ := bind_eq_ok.1 hshape
      obtain ⟨last, hlast, hrest⟩ := bind_eq_ok.1 hrest
      obtain ⟨_, hbounds, -⟩ := bind_eq_ok.1 hrest
      obtain ⟨-, hspanEq⟩ := checkedMul_eq_some.1 (okOr_eq_ok.1 hspan)
      obtain ⟨-, hlastEq⟩ := checkedAdd_eq_some.1 (okOr_eq_ok.1 hlast)
      rw [hlastEq, hspanEq] at hbounds
      obtain ⟨hpower, hlow⟩ := not_or.1 hdecline
      obtain ⟨bits, hbits⟩ := not_not.1 hpower
      -- the stride is below the low table, whose length is a machine word
      have hle : 2 ^ bits ≤ 2 ^ w.lowBits := by
        rw [← hbits, ← hw.split.low_length]
        omega
      have hlt : bits < 64 := ((Nat.pow_le_pow_iff_right one_lt_two).1 hle).trans_lt hw.lowBits_lt
      refine ⟨terms, bits, rfl, hbits, by rw [hbits, trailingZeros_two_pow hlt], fun t ht => ?_⟩
      obtain ⟨_, hadd, -⟩ := bind_eq_ok.1 (forM_eq_ok.1 hbounds t ht)
      exact (checkedAdd_eq_some.1 (okOr_eq_ok.1 hadd)).1

/-- **A view that is admitted** adds its weight at every coordinate of the destination. -/
theorem accumulateView_spec (hw : w.Values e) (hhigh : w.eqHigh = some highValues) (hview : view.Shape start len axis)
    (hexact : view.Exact) (hadmits : admitsRuns w len view = .ok true) {destination : List F} (hlen : destination.length = len)
    (h : accumulateView w highValues destination view = .ok out) :
    out.length = len ∧ ∀ k < len, out.getD k 0 = destination.getD k 0 + view.family.leftWeight e (start + k) := by
  unfold accumulateView at h
  by_cases hscalar : view.family.scalar = 0
  · rw [if_pos hscalar] at h
    cases h
    exact ⟨hlen, fun k _ => by rw [leftWeight_of_scalar_zero hscalar, add_zero]⟩
  · obtain ⟨terms, bits, hterms, hstride, hbits, hbound⟩ := admitsRuns_spec hw hview.get hscalar hadmits
    rw [if_neg hscalar, hview.get, hterms] at h
    have hfold : terms.foldlM (fun destination t => do
        let coefficient := if view.family.scalar = 1 then t.2 else view.family.scalar * t.2
        let index ← okOr (checkedAdd usizeBits view.family.rightOffset t.1) (.internal "validated tensor run offset overflow")
        accumulateRun w highValues axis.rightStride (trailingZeros axis.rightStride) coefficient destination.length index destination)
        destination = .ok out := h
    clear h
    -- what one term adds
    have hterm : ∀ (made : List F) (t : ℕ × F) (made' : List F), t ∈ terms → made.length = len → (do
        let coefficient := if view.family.scalar = 1 then t.2 else view.family.scalar * t.2
        let index ← okOr (checkedAdd usizeBits view.family.rightOffset t.1) (.internal "validated tensor run offset overflow")
        accumulateRun w highValues axis.rightStride (trailingZeros axis.rightStride) coefficient made.length index made) = .ok made' →
        made'.length = len ∧ ∀ k < len, made'.getD k 0 = made.getD k 0 +
          view.family.scalar * (t.2 * e (view.family.rightOffset + axis.rightStride * k + t.1)) := by
      intro made t made' ht hmade hrun
      obtain ⟨index, hindex, hrun⟩ := bind_eq_ok.1 hrun
      obtain ⟨-, rfl⟩ := checkedAdd_eq_some.1 (okOr_eq_ok.1 hindex)
      have hcoeff : (if view.family.scalar = 1 then t.2 else view.family.scalar * t.2) = view.family.scalar * t.2 := by
        split
        · next hone => rw [hone, one_mul]
        · rfl
      rw [hcoeff, hbits, hstride] at hrun
      obtain ⟨hrunLen, hrunGet⟩ := accumulateRun_spec hw.split hhigh le_rfl hrun
      refine ⟨hrunLen.trans hmade, fun k hk => ?_⟩
      have hlast := hbound t ht
      have hmul : axis.rightStride * k ≤ axis.rightStride * (axis.len - 1) := Nat.mul_le_mul_left _ (by rw [hview.len_eq]; omega)
      rw [hrunGet k (by omega), ← hstride, hw.eval _ (by omega), add_right_comm, mul_assoc]
    obtain ⟨houtLen, hsum⟩ := foldlM_slots id hterm hlen hfold
    refine ⟨houtLen, fun k hk => ?_⟩
    have hsum := hsum k hk
    simp only [id] at hsum
    rw [hsum, List.sum_map_mul_left, hview.leftWeight_add e hk, ← hexact.sum hterms]
    rfl

theorem admitViews_spec : ∀ {views : List (DenseLeftTensorView F)},
    admitViews w destinationLen views = .ok true → ∀ view ∈ views, admitsRuns w destinationLen view = .ok true := by
  intro views
  induction views with
  | nil => simp
  | cons view views ih =>
    intro h
    rw [admitViews] at h
    obtain ⟨admitted, hview, h⟩ := bind_eq_ok.1 h
    cases admitted with
    | false => cases pure_eq_ok.1 h
    | true => exact List.forall_mem_cons.2 ⟨hview, ih h⟩

/-- **The runs** hold the weight of every view. -/
theorem tryAccumulate_spec (hw : w.Values e) {views : List (DenseLeftTensorView F)}
    (hviews : ∀ view ∈ views, (∃ axis, view.Shape start len axis) ∧ view.Exact) {separated : Bool}
    (h : tryAccumulate w views separated (List.replicate len 0) = .ok (some out)) :
    out.length = len ∧ ∀ k < len, out.getD k 0 = (views.map fun view => view.family.leftWeight e (start + k)).sum := by
  unfold tryAccumulate at h
  cases hhigh : w.eqHigh with
  | none =>
    rw [hhigh] at h
    cases h
  | some highValues =>
    rw [hhigh] at h
    simp only [List.length_replicate] at h
    by_cases hskip : len < 16 ∨ separated
    · rw [if_pos hskip] at h
      cases h
    · rw [if_neg hskip] at h
      obtain ⟨admitted, hadmitted, h⟩ := bind_eq_ok.1 h
      cases admitted with
      | false => cases pure_eq_ok.1 h
      | true =>
        obtain ⟨destination, hdest, h⟩ := bind_eq_ok.1 h
        obtain rfl := Option.some.inj (pure_eq_ok.1 h)
        have hadmits := admitViews_spec hadmitted
        have hstep : ∀ (made : List F) (view : DenseLeftTensorView F) (made' : List F), view ∈ views → made.length = len →
            accumulateView w highValues made view = .ok made' →
            made'.length = len ∧ ∀ k < len, made'.getD k 0 = made.getD k 0 + view.family.leftWeight e (start + k) := by
          intro made view made' hview hmade hacc
          obtain ⟨⟨axis, hshape⟩, hexact⟩ := hviews view hview
          exact accumulateView_spec hw hhigh hshape hexact (hadmits view hview) hmade hacc
        have hzeros : (List.replicate len (0 : F)).length = len := List.length_replicate
        obtain ⟨houtLen, hsum⟩ := foldlM_slots id hstep hzeros hdest
        refine ⟨houtLen, fun k hk => ?_⟩
        have hsum := hsum k hk
        simp only [id] at hsum
        rw [hsum, List.getD_eq_getElem _ _ (by simpa using hk), List.getElem_replicate, zero_add]

end Akita.OffsetEq
