import Akita.Proof.TensorResidual

/-!
# Left materialization is exact

* `plan_spec`: a planned overlap has one view for each family, and every table adds up to its residual.
* `DenseLeftOverlap.materialize_exact`: runs, separated residuals, tables and walks hold the weight of every left address.
* `visitTensorCoordinates_spec`: the general walk adds the address sum of its axes.
* `materializeEqTensorLeft_exact`: whatever path is taken, the output is the weight of every left address.
-/

namespace Akita.OffsetEq

open Lib Finset List DenseLeftOverlap

variable {F : Type} {start len budgetBytes outputLen n : ℕ}

/-! ## Planning -/

/-- The destination axis is the one unit axis that moves the left address, by one. -/
theorem destinationAxisFrom_spec : ∀ {axes : List (EqPairTensorAxis F)} {index d : ℕ} {destination : Option ℕ},
    destinationAxisFrom axes index destination = some d → (destination = some d ∧ ∀ axis ∈ axes, axis.leftStride = 0) ∨
      (destination = none ∧ ∃ j axis, d = index + j ∧ axes[j]? = some axis ∧ axis.isUnit = true ∧ axis.leftStride = 1 ∧
        ∀ other ∈ axes.eraseIdx j, other.leftStride = 0) := by
  intro axes
  induction axes with
  | nil =>
    intro index d destination h
    exact .inl ⟨h, by simp⟩
  | cons axis axes ih =>
    intro index d destination h
    rw [destinationAxisFrom] at h
    by_cases hunit : axis.leftStride = 1 ∧ axis.isUnit = true
    · rw [if_pos hunit] at h
      cases destination with
      | some d' => simp at h
      | none =>
        rw [if_neg (by simp)] at h
        obtain ⟨hd, hothers⟩ | ⟨hnone, -⟩ := ih h
        · exact .inr ⟨rfl, 0, axis, (Option.some.inj hd).symm, rfl, hunit.2, hunit.1, by simpa using hothers⟩
        · cases hnone
    · rw [if_neg hunit] at h
      by_cases hstride : axis.leftStride ≠ 0
      · rw [if_pos hstride] at h
        cases h
      · rw [if_neg hstride] at h
        have hzero := not_not.1 hstride
        obtain ⟨hd, hothers⟩ | ⟨hnone, j, axis', hd, hget, haxis', hstride', hothers⟩ := ih h
        · exact .inl ⟨hd, forall_mem_cons.2 ⟨hzero, hothers⟩⟩
        · refine .inr ⟨hnone, j + 1, axis', by omega, by simpa using hget, haxis', hstride', ?_⟩
          rw [eraseIdx_cons_succ]
          exact forall_mem_cons.2 ⟨hzero, hothers⟩

variable {family : EqPairTensorFamily F} {view view' : DenseLeftTensorView F} {axis : EqPairTensorAxis F}
  {views views' : List (DenseLeftTensorView F)} {families : List (EqPairTensorFamily F)} {overlap : DenseLeftOverlap F}
  {progress : ℕ × List F}

theorem denseLeftDestinationAxis_spec {d : ℕ} (h : denseLeftDestinationAxis family = some d) :
    ∃ axis, family.axes[d]? = some axis ∧ axis.isUnit = true ∧ axis.leftStride = 1 ∧
      ∀ other ∈ family.axes.eraseIdx d, other.leftStride = 0 := by
  obtain ⟨hnone, -⟩ | ⟨-, j, axis, hd, hget, hunit, hstride, hothers⟩ := destinationAxisFrom_spec h
  · cases hnone
  · rw [zero_add] at hd
    rw [hd]
    exact ⟨axis, hget, hunit, hstride, hothers⟩

/-- **The family loop** takes one view for each family, all over the same destination. -/
theorem planViews_spec : ∀ {families : List (EqPairTensorFamily F)} {views views' : List (DenseLeftTensorView F)}
    {coordinates coordinates' : ℕ}, planViews start len families views coordinates = .ok (some (views', coordinates')) →
    ∃ new, views' = views ++ new ∧ new.map (·.family) = families ∧
      ∀ view ∈ new, (∃ axis, view.Shape start len axis) ∧ view.residual = .streamed := by
  intro families
  induction families with
  | nil =>
    intro views views' coordinates coordinates' h
    obtain ⟨rfl, -⟩ := Prod.mk.inj (Option.some.inj (Except.ok.inj h))
    exact ⟨[], by simp, rfl, by simp⟩
  | cons family families ih =>
    intro views views' coordinates coordinates' h
    rw [planViews] at h
    cases hd : denseLeftDestinationAxis family with
    | none =>
      rw [hd] at h
      cases h
    | some d =>
      rw [hd] at h
      obtain ⟨axis, haxis, h⟩ := bind_eq_ok.1 h
      by_cases hother : family.leftOffset ≠ start ∨ axis.len ≠ len
      · rw [if_pos hother] at h
        cases pure_eq_ok.1 h
      · rw [if_neg hother] at h
        simp only [bind_eq_ok] at h
        obtain ⟨_, _, _, _, h⟩ := h
        obtain ⟨hstart, hlen⟩ := not_or.1 hother
        obtain ⟨new, hviews, hnew, hshapes⟩ := ih h
        refine ⟨⟨family, d, .streamed⟩ :: new, by simp [hviews], by simp [hnew], forall_mem_cons.2 ⟨⟨?_, rfl⟩, hshapes⟩⟩
        obtain ⟨axis', hget, hunit, hstride, hothers⟩ := denseLeftDestinationAxis_spec hd
        obtain rfl : axis' = axis := Option.some.inj (hget.symm.trans (okOr_eq_ok.1 haxis))
        exact ⟨axis', hget, not_not.1 hstart, not_not.1 hlen, hunit, hstride, hothers⟩

variable [Field F]

theorem exact_of_streamed (h : view.residual = .streamed) : view.Exact := by
  intro terms hterms
  rw [h] at hterms
  cases hterms

/-- A view that only differs in its residual, and whose residual is exact. -/
def DenseLeftTensorView.Retabulates (view view' : DenseLeftTensorView F) : Prop :=
  view'.family = view.family ∧ view'.destinationAxis = view.destinationAxis ∧ view'.Exact

theorem DenseLeftTensorView.Retabulates.shape (h : view.Retabulates view') (hshape : view.Shape start len axis) :
    view'.Shape start len axis := by
  obtain ⟨hfam, hdest, -⟩ := h
  obtain ⟨hget, hleft, hlen, hunit, hstride, hothers⟩ := hshape
  unfold DenseLeftTensorView.residualAxes at hothers
  rw [← hfam, ← hdest] at hget hothers
  exact ⟨hget, hfam ▸ hleft, hlen, hunit, hstride, hothers⟩

theorem retabulates_families (h : Forall₂ DenseLeftTensorView.Retabulates views views') :
    views'.map (·.family) = views.map (·.family) := by
  induction h with
  | nil => rfl
  | cons hview _ ih => rw [List.map_cons, List.map_cons, hview.1, ih]

/-- What a planned overlap has: one exact view for each family, all over the same destination. -/
structure DenseLeftOverlap.Planned (overlap : DenseLeftOverlap F) (families : List (EqPairTensorFamily F)) : Prop where
  families_eq : overlap.views.map (·.family) = families
  shape : ∀ view ∈ overlap.views, ∃ axis, view.Shape overlap.destinationStart overlap.destinationLen axis
  exact : ∀ view ∈ overlap.views, view.Exact

variable [DecidableEq F] {rt : Runtime} {ft : TensorFeatures} {e : ℕ → F} {w : OffsetEqWindow F}

theorem tabulateResidual_exact {live : ℕ} (h : view.tabulateResidual rt live = .ok view') :
    view'.family = view.family ∧ view'.destinationAxis = view.destinationAxis ∧ view'.Exact := by
  unfold DenseLeftTensorView.tabulateResidual at h
  simp only [bind_eq_ok] at h
  obtain ⟨_, _, table, htable, h⟩ := h
  rw [← pure_eq_ok.1 h]
  refine ⟨rfl, rfl, fun terms hterms f => ?_⟩
  obtain rfl := ResidualTerms.table.inj hterms
  rw [(visitResidualTerms_spec htable).1, one_mul, remaining_zero]
  rfl

/-- **The tabulation** leaves the families alone, and every table it makes is exact. -/
theorem tabulateViews_spec (hstreamed : ∀ view ∈ views, view.residual = .streamed)
    (h : tabulateViews rt ft views budgetBytes = .ok views') :
    Forall₂ DenseLeftTensorView.Retabulates views views' := by
  obtain ⟨live, hlive, htotal⟩ := bind_eq_ok.1 h
  obtain ⟨liveTotal, hsum, hmap⟩ := bind_eq_ok.1 htotal
  have hcounts := forall₂_of_mapM hlive
  have hviews := forall₂_of_mapM hmap
  clear h hlive htotal hsum hmap
  induction hcounts generalizing views' with
  | nil =>
    obtain rfl := forall₂_nil_left_iff.1 hviews
    exact .nil
  | @cons view count views live hcount hcounts ih =>
    rw [zip_cons_cons] at hviews
    obtain ⟨view', rest, hview, hrest, rfl⟩ := forall₂_cons_left_iff.1 hviews
    obtain ⟨hhead, htail⟩ := forall_mem_cons.1 hstreamed
    refine .cons ?_ (ih htail hrest)
    simp only at hview
    by_cases hdead : count = 0
    · rw [if_pos hdead] at hview
      rw [← pure_eq_ok.1 hview]
      refine ⟨rfl, rfl, fun terms hterms f => ?_⟩
      obtain rfl := ResidualTerms.table.inj hterms
      rw [termSum_nil, mul_zero]
      exact (residualSum_of_not_live (hdead ▸ hcount) 0).symm
    · rw [if_neg hdead] at hview
      split at hview
      · exact tabulateResidual_exact hview
      · rw [← pure_eq_ok.1 hview]
        exact ⟨rfl, rfl, exact_of_streamed hhead⟩

/-- **Planning** covers every family once. -/
theorem plan_spec (h : DenseLeftOverlap.plan rt ft families outputLen budgetBytes = .ok (some overlap)) :
    overlap.Planned families := by
  unfold DenseLeftOverlap.plan at h
  cases hfirst : families.head? with
  | none =>
    rw [hfirst] at h
    cases h
  | some first =>
    rw [hfirst] at h
    simp only at h
    cases hd : denseLeftDestinationAxis first with
    | none =>
      rw [hd] at h
      cases h
    | some d =>
      rw [hd] at h
      simp only [bind_eq_ok] at h
      obtain ⟨axis, _, _, _, _, _, planned, hplanned, h⟩ := h
      cases planned with
      | none => cases pure_eq_ok.1 h
      | some planned =>
        simp only [bind_eq_ok] at h
        obtain ⟨_, _, _, _, views, hviews, h⟩ := h
        obtain rfl := Option.some.inj (pure_eq_ok.1 h)
        have hviewsPlanned : planViews first.leftOffset axis.len families [] 0 = .ok (some (planned.1, planned.2)) := hplanned
        obtain ⟨new, hnew, hfams, hall⟩ := planViews_spec hviewsPlanned
        rw [nil_append] at hnew
        rw [hnew] at hviews
        have hstreamed : ∀ view ∈ new, view.residual = .streamed := fun view hview => (hall view hview).2
        have hretab : Forall₂ DenseLeftTensorView.Retabulates new views := by
          split at hviews
          · exact tabulateViews_spec hstreamed hviews
          · rw [← pure_eq_ok.1 hviews]
            exact forall₂_same.2 fun view hview => ⟨rfl, rfl, exact_of_streamed (hstreamed view hview)⟩
        refine ⟨?_, fun view hview => ?_, fun view hview => ?_⟩
        · rw [← hfams]
          exact retabulates_families hretab
        · obtain ⟨old, hold, hretabulated⟩ := exists_of_mem_forall₂ hretab hview
          obtain ⟨axis, hshape⟩ := (hall old hold).1
          exact ⟨axis, hretabulated.shape hshape⟩
        · obtain ⟨old, hold, hretabulated⟩ := exists_of_mem_forall₂ hretab hview
          exact hretabulated.2.2

/-! ## Materialization over a dense destination -/

section

variable (hw : w.Values e)

include hw

/-- **One view at one coordinate**, separated or not. -/
theorem evaluateView_spec (hshape : view.Shape start len axis) (hexact : view.Exact)
    {prepared : Option (SeparatedResidual F)} (hprep : prepared = none ∨ SeparatedResidual.prepare view w = .ok prepared)
    {k : ℕ} (hk : k < len) {value : F} (h : evaluateView w k (view, prepared) = .ok value) :
    value = view.family.leftWeight e (start + k) := by
  unfold evaluateView at h
  simp only at h
  by_cases hscalar : view.family.scalar = 0
  · rw [if_pos hscalar] at h
    rw [leftWeight_of_scalar_zero hscalar]
    exact (Except.ok.inj h).symm
  · rw [if_neg hscalar, hshape.get] at h
    obtain ⟨axis', haxis, hread⟩ := bind_eq_ok.1 h
    have haxisEq : axis' = axis := (Option.some.inj (okOr_eq_ok.1 haxis)).symm
    rw [haxisEq] at hread
    obtain ⟨base, hbase, hvalue⟩ := bind_eq_ok.1 hread
    obtain ⟨hlt, hbaseEq⟩ := checkedAxisOffset_eq_ok.1 hbase
    rw [hshape.leftWeight_add e hk]
    rw [hbaseEq] at hvalue
    cases hcase : prepared with
    | none =>
      rw [hcase] at hvalue
      exact evaluateResidual_spec hw hexact hlt hvalue
    | some separated =>
      rw [hcase] at hvalue hprep
      obtain ⟨sum, hsum, hscaled⟩ := bind_eq_ok.1 hvalue
      have hprepare := hprep.resolve_left (by simp)
      obtain ⟨terms, hterms, hsep⟩ := prepare_spec hw.split hshape.get hprepare
      have hstep : axis.rightStride * k ≤ axis.rightStride * (axis.len - 1) := Nat.mul_le_mul_left _ (by rw [hshape.len_eq]; omega)
      rw [← pure_eq_ok.1 hscaled, weighted_eq, hsep.evaluate_spec hw hstep hsum, hexact.sum hterms]

theorem coordinates_spec (hviews : ∀ view ∈ views, (∃ axis, view.Shape start len axis) ∧ view.Exact)
    {separated : List (Option (SeparatedResidual F))}
    (hsep : Forall₂ (fun view prepared => prepared = none ∨ SeparatedResidual.prepare view w = .ok prepared) views separated)
    {out : List F} (h : (List.range len).mapM (fun coordinate => (views.zip separated).foldlM (fun value entry => do
      let term ← evaluateView w coordinate entry
      return value + term) 0) = .ok out) :
    out.length = len ∧ ∀ k < len, out.getD k 0 = (views.map fun view => view.family.leftWeight e (start + k)).sum := by
  obtain ⟨hlen, hvalues⟩ := forall_of_mapM_range h
  refine ⟨hlen, fun k hk => ?_⟩
  have hsum : out.getD k 0 = 0 + ((views.zip separated).map fun entry => entry.1.family.leftWeight e (start + k)).sum := by
    refine foldlM_sum (fun value entry value' hentry hstep => ?_) (hvalues k hk)
    obtain ⟨term, hterm, hadd⟩ := bind_eq_ok.1 hstep
    obtain ⟨⟨axis, hshape⟩, hexact⟩ := hviews entry.1 (List.of_mem_zip hentry).1
    rw [← pure_eq_ok.1 hadd, evaluateView_spec hw hshape hexact (List.forall₂_zip hsep hentry) hk hterm]
  have hfirsts : (views.zip separated).map Prod.fst = views := List.map_fst_zip hsep.length_eq.le
  have hmap : (views.zip separated).map (fun entry => entry.1.family.leftWeight e (start + k)) =
      ((views.zip separated).map Prod.fst).map fun view => view.family.leftWeight e (start + k) := by
    rw [List.map_map]
    rfl
  rw [hsum, zero_add, hmap, hfirsts]

/-- **Every path over a dense destination is exact.** -/
theorem DenseLeftOverlap.Planned.materialize_exact (hplan : overlap.Planned families) {output : List F}
    (h : overlap.materialize ft w outputLen = .ok output) : Holds output outputLen (leftWeight e families) := by
  unfold materialize at h
  simp only [bind_eq_ok] at h
  obtain ⟨separated, hsep, _, hbounds, runs, hruns, h⟩ := h
  have hviews : ∀ view ∈ overlap.views, (∃ axis, view.Shape overlap.destinationStart overlap.destinationLen axis) ∧ view.Exact :=
    fun view hview => ⟨hplan.shape view hview, hplan.exact view hview⟩
  obtain ⟨destination, hout, hlen, hvalues⟩ : ∃ destination,
      writeSlice (replicate outputLen 0) overlap.destinationStart destination = output ∧
      destination.length = overlap.destinationLen ∧ ∀ k < overlap.destinationLen, destination.getD k 0 =
        (overlap.views.map fun view => view.family.leftWeight e (overlap.destinationStart + k)).sum := by
    cases runs with
    | some accumulated =>
      refine ⟨accumulated, pure_eq_ok.1 h, ?_⟩
      split at hruns
      · exact tryAccumulate_spec hw hviews hruns
      · cases pure_eq_ok.1 hruns
    | none =>
      obtain ⟨destination, hdest, hwrite⟩ := bind_eq_ok.1 h
      refine ⟨destination, pure_eq_ok.1 hwrite, ?_⟩
      refine coordinates_spec hw hviews ((forall₂_of_mapM hsep).imp fun view prepared hprep => ?_) hdest
      split at hprep
      · exact .inr hprep
      · exact .inl (pure_eq_ok.1 hprep).symm
  have hstop : overlap.destinationStart + destination.length ≤ (List.replicate outputLen (0 : F)).length := by
    rw [hlen, List.length_replicate]
    exact ensure_eq_ok.1 hbounds
  have hweight : ∀ a, leftWeight e families a = (overlap.views.map fun view => view.family.leftWeight e a).sum := by
    intro a
    rw [leftWeight, ← hplan.families_eq, List.map_map]
    rfl
  rw [← hout]
  refine ⟨by rw [writeSlice_length hstop, List.length_replicate], fun a ha => ?_⟩
  rw [writeSlice_getD hstop, hweight, hlen]
  by_cases hin : overlap.destinationStart ≤ a ∧ a < overlap.destinationStart + overlap.destinationLen
  · rw [if_pos hin, hvalues _ (by omega), Nat.add_sub_cancel' hin.1]
  · -- nothing is put outside the destination
    rw [if_neg hin, List.getD_eq_getElem _ _ (by simpa using ha), List.getElem_replicate]
    symm
    apply List.sum_eq_zero
    intro x hx
    obtain ⟨view, hview, rfl⟩ := List.mem_map.1 hx
    obtain ⟨axis, hshape⟩ := hplan.shape view hview
    rw [hshape.leftWeight, if_neg hin]

/-! ## The general path -/

theorem addLeftWeight_spec {left right : ℕ} {weight : F} {output output' : List F} (hright : right < 2 ^ 64)
    (h : addLeftWeight w left right weight output = .ok output') :
    output'.length = output.length ∧ ∀ a < output.length, output'.getD a 0 = output.getD a 0 + weight * onLeft e a (left, right) := by
  obtain ⟨_, _, h⟩ := bind_eq_ok.1 h
  rw [← pure_eq_ok.1 h]
  refine ⟨length_modify .., fun a ha => ?_⟩
  rw [getD_eq_getElem _ _ (by rwa [length_modify]), getD_eq_getElem _ _ ha, getElem_modify, onLeft]
  by_cases hleft : left = a
  · rw [if_pos hleft, if_pos hleft, weighted_eq, hw.eval right hright]
  · rw [if_neg hleft, if_neg hleft, mul_zero, add_zero]

/-- **The walk over all coordinates** adds the address sum of its axes. -/
theorem visitTensorCoordinates_spec : ∀ {axes : List (EqPairTensorAxis F)} {left right : ℕ} {weight : F}
    {progress progress' : ℕ × List F}, right < 2 ^ 64 → progress.2.length = n →
    visitTensorCoordinates (addLeftWeight w) axes left right weight progress = .ok progress' →
    progress'.2.length = n ∧ ∀ a < n, progress'.2.getD a 0 = progress.2.getD a 0 + weight * leftSum e axes left right a := by
  intro axes
  induction axes with
  | nil =>
    intro left right weight progress progress' hright hlen h
    rw [visitTensorCoordinates] at h
    by_cases hweight : weight = 0
    · rw [if_pos hweight] at h
      cases h
      exact ⟨hlen, fun a _ => by rw [hweight, zero_mul, add_zero]⟩
    · rw [if_neg hweight] at h
      simp only [bind_eq_ok] at h
      obtain ⟨work, _, output, houtput, h⟩ := h
      obtain ⟨houtLen, hout⟩ := addLeftWeight_spec hw hright houtput
      rw [← pure_eq_ok.1 h]
      exact ⟨houtLen.trans hlen, fun a ha => hout a (hlen ▸ ha)⟩
  | cons axis axes ih =>
    intro left right weight progress progress' hright hlen h
    rw [visitTensorCoordinates] at h
    by_cases hweight : weight = 0
    · rw [if_pos hweight] at h
      cases h
      exact ⟨hlen, fun a _ => by rw [hweight, zero_mul, add_zero]⟩
    · rw [if_neg hweight] at h
      obtain ⟨work, _, h⟩ := bind_eq_ok.1 h
      have hloop := foldlM_slots Prod.snd (s := (work, progress.2)) (g := fun i a => weight * (axis.weightAt i *
        leftSum e axes (left + axis.leftStride * i) (right + axis.rightStride * i) a)) (n := n) ?_ hlen h
      · obtain ⟨hlen', hsum⟩ := hloop
        refine ⟨hlen', fun a ha => ?_⟩
        rw [hsum a ha, sum_map_mul_left, leftSum_cons, sum_map_range]
      · intro made i made' _ hmade hstep
        obtain ⟨factor, hfactor, hstep⟩ := bind_eq_ok.1 hstep
        have hweightAt : axis.weightAt i = factor := by rw [EqPairTensorAxis.weightAt, okOr_eq_ok.1 hfactor]; rfl
        by_cases hzero : factor = 0
        · rw [if_pos hzero] at hstep
          cases hstep
          exact ⟨hmade, fun a _ => by rw [hweightAt, hzero]; simp⟩
        · rw [if_neg hzero] at hstep
          simp only [bind_eq_ok] at hstep
          obtain ⟨nextLeft, hleft, nextRight, hnextRight, hstep⟩ := hstep
          obtain ⟨-, rfl⟩ := checkedAxisOffset_eq_ok.1 hleft
          obtain ⟨hlt, rfl⟩ := checkedAxisOffset_eq_ok.1 hnextRight
          obtain ⟨hlen', hadd⟩ := ih hlt hmade hstep
          exact ⟨hlen', fun a ha => by rw [hadd a ha, scaleWeight_eq, hweightAt, mul_assoc]⟩

/-- **One family** adds its weight, filled or visited. -/
theorem materializeFamily_spec (hright : family.rightOffset < 2 ^ 64) {progress' : ℕ × List F}
    (hlen : progress.2.length = n) (h : materializeFamily w progress family = .ok progress') :
    progress'.2.length = n ∧ ∀ a < n, progress'.2.getD a 0 = progress.2.getD a 0 + family.leftWeight e a := by
  have hvisit : visitTensorCoordinates (addLeftWeight w) family.axes family.leftOffset family.rightOffset family.scalar progress =
      .ok progress' → progress'.2.length = n ∧ ∀ a < n, progress'.2.getD a 0 = progress.2.getD a 0 + family.leftWeight e a := by
    intro hrun
    obtain ⟨hlen', hadd⟩ := visitTensorCoordinates_spec hw hright hlen hrun
    exact ⟨hlen', fun a ha => by rw [hadd a ha, leftWeight_eq]⟩
  unfold materializeFamily at h
  cases hshape : (if family.scalar = 1 then contiguousUnit family.axes else none) with
  | none =>
    rw [hshape] at h
    exact hvisit h
  | some axis =>
    rw [hshape] at h
    simp only [bind_eq_ok] at h
    obtain ⟨stop, hstop, _, hbounds, h⟩ := h
    by_cases hzeros : ∀ value ∈ (progress.2.drop family.leftOffset).take axis.len, value = 0
    · rw [if_pos hzeros] at h
      simp only [bind_eq_ok] at h
      obtain ⟨work, _, values, hvalues, h⟩ := h
      obtain ⟨hone, haxis⟩ : family.scalar = 1 ∧ contiguousUnit family.axes = some axis := by
        split at hshape
        · next hone => exact ⟨hone, hshape⟩
        · cases hshape
      obtain ⟨-, hstopEq⟩ := checkedAdd_eq_some.1 (okOr_eq_ok.1 hstop)
      have hle : family.leftOffset + axis.len ≤ progress.2.length := hstopEq ▸ ensure_eq_ok.1 hbounds
      have hslice : ∀ a, family.leftOffset ≤ a → a < family.leftOffset + axis.len → progress.2.getD a 0 = 0 := by
        intro a ha hend
        have hlt : a < progress.2.length := by omega
        rw [getD_eq_getElem _ _ hlt]
        refine hzeros _ (mem_take_iff_getElem.2 ⟨a - family.leftOffset, ?_, ?_⟩)
        · rw [length_drop]
          omega
        · rw [getElem_drop]
          congr 1
          omega
      obtain ⟨hlen', hadd⟩ := fill_add hw hvalues hle hslice
      rw [← pure_eq_ok.1 h]
      refine ⟨hlen'.trans hlen, fun a _ => ?_⟩
      rw [hadd, leftWeight_interval hone haxis]
    · rw [if_neg hzeros] at h
      exact hvisit h

/-- **The general path is exact.** -/
theorem materializeFamilies_exact (hright : ∀ family ∈ families, family.rightOffset < 2 ^ 64)
    (h : families.foldlM (materializeFamily w) (0, replicate n 0) = .ok progress) :
    Holds progress.2 n (leftWeight e families) := by
  obtain ⟨hlen, hsum⟩ := foldlM_slots Prod.snd (g := fun (family : EqPairTensorFamily F) a => family.leftWeight e a) (n := n)
    (fun made family made' hfam hmade hstep => materializeFamily_spec hw (hright family hfam) hmade hstep)
    length_replicate h
  refine ⟨hlen, fun a ha => ?_⟩
  rw [hsum a ha, getD_eq_getElem _ _ (by simpa using ha), getElem_replicate, zero_add]
  rfl

end

/-! ## The main result -/

theorem values_of_withLowBits {challenges : List F} {cap : ℕ} (h : OffsetEqWindow.withLowBits rt challenges cap = .ok w) :
    w.Values (eqAt challenges) where
  split := OffsetEqWindow.withLowBits_split h
  lowBits_lt := OffsetEqWindow.lowBits_lt h
  eval := OffsetEqWindow.withLowBits_reads h

/-- **Left materialization is exact on every path.** For every point, every list of families over machine offsets, every
output length and every build, what `materialize_eq_tensor_left` returns holds at each left address the sum, over the
families and the index tuples with that left address, of the scalar times the axis weights times the equality value of
the right address. The dense overlap is exact under any residual budget. -/
theorem materializeEqTensorLeft_exact {challenges : List F} {cap : ℕ} (hw : OffsetEqWindow.withLowBits rt challenges cap = .ok w)
    (families : List (EqPairTensorFamily F)) (hright : ∀ family ∈ families, family.rightOffset < 2 ^ usizeBits) (outputLen : ℕ) :
    (∀ output, materializeEqTensorLeft rt ft w families outputLen = .ok output →
      output.length = outputLen ∧ ∀ a < outputLen, output[a]? = some (leftWeight (eqAt challenges) families a)) ∧
      ∀ budgetBytes overlap output, DenseLeftOverlap.plan rt ft families outputLen budgetBytes = .ok (some overlap) →
        overlap.materialize ft w outputLen = .ok output →
        output.length = outputLen ∧ ∀ a < outputLen, output[a]? = some (leftWeight (eqAt challenges) families a) := by
  have hvalues := values_of_withLowBits hw
  -- what an output holds, read place by place
  have hread : ∀ {output : List F}, Holds output outputLen (leftWeight (eqAt challenges) families) →
      output.length = outputLen ∧ ∀ a < outputLen, output[a]? = some (leftWeight (eqAt challenges) families a) := by
    intro output houtput
    obtain ⟨hlen, hvalue⟩ := houtput
    refine ⟨hlen, fun a ha => ?_⟩
    rw [← hvalue a ha, getElem?_eq_getElem (by omega), getD_eq_getElem _ _ (by omega)]
  refine ⟨fun output h => hread ?_, fun budgetBytes overlap output hplan h => hread ((plan_spec hplan).materialize_exact hvalues h)⟩
  unfold materializeEqTensorLeft at h
  simp only [bind_eq_ok] at h
  obtain ⟨_, _, intervals, hintervals, h⟩ := h
  cases intervals with
  | some filled =>
    cases h
    exact materializeDisjointUnitIntervals_exact hvalues hintervals
  | none =>
    obtain ⟨planned, hplanned, h⟩ := bind_eq_ok.1 h
    cases planned with
    | some overlap => exact (plan_spec hplanned).materialize_exact hvalues h
    | none =>
      obtain ⟨progress, hprogress, h⟩ := bind_eq_ok.1 h
      cases h
      exact materializeFamilies_exact hvalues hright hprogress

/-- A dense destination with a weighted residual, and a family that stays on one left address. -/
theorem materializeEqTensorLeft_exact_overlapping :
    ∃ (w : OffsetEqWindow (ZMod 5)) (output : List (ZMod 5)), OffsetEqWindow.withLowBits serialTables [2, 3, 4] 2 = .ok w ∧
      materializeEqTensorLeft serialTables ⟨true, true, 8⟩ w
        [⟨0, 1, 2, [.unit 2 1 1, .dense 0 1 [3, 4]]⟩, ⟨1, 1, 3, [.unit 2 0 1]⟩] 3 = .ok output ∧
      output.length = 3 ∧ ∀ a < 3, output[a]? = some (leftWeight (eqAt [2, 3, 4])
        [⟨0, 1, 2, [.unit 2 1 1, .dense 0 1 [3, 4]]⟩, ⟨1, 1, 3, [.unit 2 0 1]⟩] a) := by
  obtain ⟨w, hw⟩ : ∃ w : OffsetEqWindow (ZMod 5), OffsetEqWindow.withLowBits serialTables [2, 3, 4] 2 = .ok w := ⟨_, rfl⟩
  obtain ⟨output, houtput⟩ : ∃ output, materializeEqTensorLeft serialTables ⟨true, true, 8⟩ w
      [⟨0, 1, 2, [.unit 2 1 1, .dense 0 1 [3, 4]]⟩, ⟨1, 1, 3, [.unit 2 0 1]⟩] 3 = .ok output := by
    cases hw
    exact ⟨_, rfl⟩
  exact ⟨w, output, hw, houtput, (materializeEqTensorLeft_exact hw _ (by decide) 3).1 output houtput⟩

end Akita.OffsetEq
