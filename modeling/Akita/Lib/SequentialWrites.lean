import Akita.Lib.Tiling

/-!
# Writes in address order

A write puts a run of items at an address. Writes in order end before the next one starts; such writes put one
item at most at an address, and the address they leave out keep a default. A sink that takes a write when it
starts at the sink's position or later takes a list of writes exactly when they are in order.
-/

namespace Akita.Lib

open List

variable {α σ ε : Type*} {β : Type*} {l : List β}

structure Write (α : Type*) where
  start : ℕ
  items : List α

def Write.span (w : Write α) : Span := ⟨w.start, w.start + w.items.length⟩

instance (s : Span) (p : ℕ) : Decidable (s.Holds p) := inferInstanceAs (Decidable (_ ∧ _))

def InOrder (ws : List (Write α)) : Prop := ws.Pairwise fun u v => u.span.stop ≤ v.span.start

def itemAt (d : α) : List (Write α) → ℕ → α
  | [], _ => d
  | w :: ws, p => if w.span.Holds p then w.items.getD (p - w.start) d else itemAt d ws p

section

variable {d : α} {ws vs : List (Write α)} {w : Write α} {p : ℕ}

theorem itemAt_of_not_holds (h : ∀ w ∈ ws, ¬ w.span.Holds p) : itemAt d ws p = d := by
  induction ws with
  | nil => rfl
  | cons w ws ih =>
    rw [itemAt, if_neg (h w mem_cons_self)]
    exact ih fun v hv => h v (mem_cons_of_mem w hv)

theorem itemAt_of_forall {P : α → Prop} (hd : P d) (h : ∀ w ∈ ws, ∀ item ∈ w.items, P item) : P (itemAt d ws p) := by
  induction ws with
  | nil => exact hd
  | cons w ws ih =>
    rw [itemAt]
    split
    · next hp =>
      have hlt : p - w.start < w.items.length := by
        have := hp.1
        have := hp.2
        simp only [Write.span] at *
        omega
      rw [getD_eq_getElem?_getD, getElem?_eq_getElem hlt]
      exact h w mem_cons_self _ (getElem_mem hlt)
    · exact ih fun v hv => h v (mem_cons_of_mem w hv)

theorem itemAt_append_of_not_holds (h : ∀ w ∈ ws, ¬ w.span.Holds p) : itemAt d (ws ++ vs) p = itemAt d vs p := by
  induction ws with
  | nil => rfl
  | cons w ws ih =>
    rw [cons_append, itemAt, if_neg (h w mem_cons_self)]
    exact ih fun v hv => h v (mem_cons_of_mem w hv)

theorem itemAt_append_of_holds (h : ∃ w ∈ ws, w.span.Holds p) : itemAt d (ws ++ vs) p = itemAt d ws p := by
  induction ws with
  | nil => simp at h
  | cons w ws ih =>
    rw [cons_append, itemAt, itemAt]
    split
    · rfl
    · next hnot =>
      obtain ⟨v, hv, hp⟩ := h
      rcases mem_cons.1 hv with rfl | hv
      · exact absurd hp hnot
      · exact ih ⟨v, hv, hp⟩

/-- A last write in order changes its own addresses and no others. -/
theorem itemAt_concat (hle : ∀ v ∈ ws, v.span.stop ≤ w.start) :
    itemAt d (ws ++ [w]) p = if w.span.Holds p then w.items.getD (p - w.start) d else itemAt d ws p := by
  split
  · next hp =>
    rw [itemAt_append_of_not_holds fun v hv hv' => absurd (hle v hv) (by have := hv'.2; have := hp.1; simp only [Write.span] at *; omega)]
    rw [itemAt, if_pos hp]
  · next hp =>
    by_cases hws : ∃ v ∈ ws, v.span.Holds p
    · exact itemAt_append_of_holds hws
    · push Not at hws
      rw [itemAt_append_of_not_holds hws, itemAt_of_not_holds hws, itemAt, if_neg hp]
      rfl

/-- **Writes in order** leave at an address the item of the write that holds it. -/
theorem InOrder.itemAt_eq (h : InOrder ws) (hw : w ∈ ws) (hp : w.span.Holds p) :
    itemAt d ws p = w.items.getD (p - w.start) d := by
  induction ws with
  | nil => simp at hw
  | cons v ws ih =>
    obtain ⟨hfirst, hrest⟩ := pairwise_cons.1 h
    rcases mem_cons.1 hw with rfl | hw
    · rw [itemAt, if_pos hp]
    · have hnot : ¬ v.span.Holds p := by
        intro hv
        have hle := hfirst w hw
        have hlt := hv.2
        have hge := hp.1
        omega
      rw [itemAt, if_neg hnot]
      exact ih hrest hw

theorem InOrder.of_tiles {lo hi : ℕ} (h : Tiles lo (ws.map Write.span) hi) : InOrder ws := pairwise_map.1 h.pairwise

end

/-! ## Ranges -/

section

variable {d : α} {ws vs : List (Write α)} {ranges ranges' : List Span} {p : ℕ} {v : α}
  {γ : Type*} {R : β → γ → Prop} {l' : List γ}

def Puts (d : α) (ws : List (Write α)) (p : ℕ) (v : α) : Prop := ∃ w ∈ ws, w.span.Holds p ∧ w.items.getD (p - w.start) d = v

theorem Puts.mono (h : Puts d ws p v) (hsub : ws ⊆ vs) : Puts d vs p v := by
  obtain ⟨w, hw, hp⟩ := h
  exact ⟨w, hsub hw, hp⟩

theorem Puts.itemAt_eq (h : Puts d ws p v) (horder : InOrder ws) : itemAt d ws p = v := by
  obtain ⟨w, hw, hp, hv⟩ := h
  rw [horder.itemAt_eq hw hp, hv]

theorem Puts.of_mem {w : Write α} (hw : w ∈ ws) {i : ℕ} (hi : i < w.items.length) : Puts d ws (w.start + i) (w.items.getD i d) :=
  ⟨w, hw, ⟨Nat.le_add_right _ _, Nat.add_lt_add_left hi _⟩, by rw [Nat.add_sub_cancel_left]⟩

theorem tiles_range {place : ℕ → ℕ} {items : ℕ → List α} : ∀ {n : ℕ}, (∀ k < n, place (k + 1) = place k + (items k).length) →
    Tiles (place 0) (((range n).map fun k => (⟨place k, items k⟩ : Write α)).map Write.span) (place n) := by
  intro n
  induction n with
  | zero => intro _; rfl
  | succ n ih =>
    intro h
    have hlast := h n (Nat.lt_succ_self n)
    have hrest := ih fun k hk => h k (Nat.lt_succ_of_lt hk)
    rw [range_succ, map_append, map_append, hlast]
    exact hrest.concat (s := ⟨place n, place n + (items n).length⟩) rfl (Nat.le_add_right _ _)

theorem forall₂_mem_left (h : Forall₂ R l l') {x : β} (hx : x ∈ l) : ∃ y ∈ l', R x y := by
  induction h with
  | nil => simp at hx
  | @cons a b _ _ hab _ ih =>
    rcases mem_cons.1 hx with rfl | hx
    · exact ⟨b, mem_cons_self, hab⟩
    · obtain ⟨y, hy, hxy⟩ := ih hx
      exact ⟨y, mem_cons_of_mem b hy, hxy⟩

theorem forall₂_mem_right (h : Forall₂ R l l') {y : γ} (hy : y ∈ l') : ∃ x ∈ l, R x y := forall₂_mem_left h.flip hy

theorem forall₂_flatMap {δ : Type*} {f : β → List γ} {R : γ → List δ → Prop} {wss : List (List δ)}
    (h : Forall₂ (fun x ws => ∃ vss : List (List δ), vss.flatten = ws ∧ Forall₂ R (f x) vss) l wss) :
    ∃ vss : List (List δ), vss.flatten = wss.flatten ∧ Forall₂ R (l.flatMap f) vss := by
  induction h with
  | nil => exact ⟨[], rfl, .nil⟩
  | cons hx _ ih =>
    obtain ⟨vss, rfl, hvss⟩ := hx
    obtain ⟨rest, hrest, hall⟩ := ih
    exact ⟨vss ++ rest, by rw [flatten_append, hrest, flatten_cons], rel_append hvss hall⟩

def Through (ws : List (Write α)) (ranges : List Span) : Prop := ∃ wss : List (List (Write α)), wss.flatten = ws ∧
    List.Forall₂ (fun ws range => Tiles range.start (ws.map Write.span) range.stop) wss ranges

theorem Through.nil : Through ([] : List (Write α)) [] := ⟨[], rfl, .nil⟩

theorem Through.single {range : Span} (h : Tiles range.start (ws.map Write.span) range.stop) : Through ws [range] :=
  ⟨[ws], by simp, .cons h .nil⟩

theorem Through.append (h : Through ws ranges) (h' : Through vs ranges') : Through (ws ++ vs) (ranges ++ ranges') := by
  obtain ⟨wss, rfl, hwss⟩ := h
  obtain ⟨vss, rfl, hvss⟩ := h'
  exact ⟨wss ++ vss, by simp, rel_append hwss hvss⟩

/-- **Addresses of the writes** are those of the ranges. -/
theorem Through.holds_iff (h : Through ws ranges) (p : ℕ) : (∃ w ∈ ws, w.span.Holds p) ↔ ∃ range ∈ ranges, range.Holds p := by
  obtain ⟨wss, rfl, hwss⟩ := h
  induction hwss with
  | nil => simp
  | @cons ws range wss ranges hws _ ih =>
    have hcover := hws.cover p
    simp only [mem_map, exists_exists_and_eq_and] at hcover
    rw [flatten_cons]
    simp only [mem_append, or_and_right, exists_or, mem_cons, exists_eq_left, ih, hcover]
    rfl

/-- **Ranges in order** are written in order. -/
theorem Through.inOrder (h : Through ws ranges) (horder : ranges.Pairwise fun s t => s.stop ≤ t.start) : InOrder ws := by
  obtain ⟨wss, rfl, hwss⟩ := h
  induction hwss with
  | nil => exact List.Pairwise.nil
  | @cons ws range wss ranges hws hwss ih =>
    obtain ⟨hfirst, hrest⟩ := pairwise_cons.1 horder
    rw [flatten_cons]
    refine pairwise_append.2 ⟨InOrder.of_tiles hws, ih hrest, fun u hu v hv => ?_⟩
    obtain ⟨vs, hvs, hv⟩ := mem_flatten.1 hv
    obtain ⟨next, hnext, htiles⟩ := forall₂_mem_left hwss hvs
    have hbefore := (hws.bounds _ (mem_map_of_mem hu)).2.2
    have hafter := (htiles.bounds _ (mem_map_of_mem hv)).1
    exact (hbefore.trans (hfirst next hnext)).trans hafter

theorem Through.flatten {f : β → List Span} {wss : List (List (Write α))}
    (h : Forall₂ (fun x ws => Through ws (f x)) l wss) : Through wss.flatten (l.flatMap f) := by
  induction h with
  | nil => exact Through.nil
  | cons hws _ ih => exact hws.append ih

theorem Through.bounds (h : Through ws ranges) : ∀ w ∈ ws, ∃ range ∈ ranges, range.start ≤ w.start ∧ w.span.stop ≤ range.stop := by
  obtain ⟨wss, rfl, hwss⟩ := h
  intro w hw
  obtain ⟨vs, hvs, hw⟩ := mem_flatten.1 hw
  obtain ⟨range, hrange, htiles⟩ := forall₂_mem_left hwss hvs
  have hbounds := htiles.bounds _ (mem_map_of_mem hw)
  exact ⟨range, hrange, hbounds.1, hbounds.2.2⟩

end

/-! ## Sinks -/

section

variable {write : σ → ℕ → List α → Except ε σ}

def writeAll (write : σ → ℕ → List α → Except ε σ) (ws : List (Write α)) (s : σ) : Except ε σ :=
  ws.foldlM (fun s w => write s w.start w.items) s

theorem writeAll_append (ws vs : List (Write α)) (s : σ) :
    writeAll write (ws ++ vs) s = writeAll write ws s >>= writeAll write vs := by
  unfold writeAll
  rw [foldlM_append]

/-- **A sink takes writes in order**, from its position on and up to its limit, while it keeps its invariant. -/
theorem writeAll_ok {P : σ → Prop} {position limit : σ → ℕ}
    (hwrite : ∀ s start items, P s → position s ≤ start → start + items.length ≤ limit s →
      ∃ s', write s start items = .ok s' ∧ position s' = start + items.length ∧ limit s' = limit s ∧ P s') :
    ∀ {ws : List (Write α)} {s : σ}, P s → InOrder ws → (∀ w ∈ ws, position s ≤ w.start ∧ w.span.stop ≤ limit s) →
      ∃ s', writeAll write ws s = .ok s' := by
  intro ws
  induction ws with
  | nil => intro s _ _ _; exact ⟨s, rfl⟩
  | cons w ws ih =>
    intro s hs hord hin
    obtain ⟨hfirst, hrest⟩ := pairwise_cons.1 hord
    obtain ⟨hge, hle⟩ := hin w mem_cons_self
    obtain ⟨s₁, hs₁, hpos, hlimit, hkept⟩ := hwrite s w.start w.items hs hge hle
    obtain ⟨s', hs'⟩ := ih hkept hrest fun v hv => by
      rw [hpos, hlimit]
      exact ⟨hfirst v hv, (hin v (mem_cons_of_mem w hv)).2⟩
    refine ⟨s', ?_⟩
    unfold writeAll at hs' ⊢
    rw [foldlM_cons, hs₁]
    exact hs'

end

/-- The writes of a list that start where those taken before end, or later, and stay below the limit. -/
def taken (limit : ℕ) (ws : List (Write α)) : List (Write α) :=
  ws.foldl (fun made w => if (∀ v ∈ made, v.span.stop ≤ w.start) ∧ w.span.stop ≤ limit then made ++ [w] else made) []

theorem taken_concat (limit : ℕ) (ws : List (Write α)) (w : Write α) : taken limit (ws ++ [w]) =
    if (∀ v ∈ taken limit ws, v.span.stop ≤ w.start) ∧ w.span.stop ≤ limit then taken limit ws ++ [w] else taken limit ws := by
  unfold taken
  rw [foldl_append]
  rfl

/-! ## Emissions -/

/-- A program that writes to whatever sink it is given, and may stop with an error of its own. -/
abbrev Emission (α ε : Type*) := ∀ σ : Type, (σ → ℕ → List α → Except ε σ) → σ → Except ε σ

/-- **The emission makes these writes**, in every sink, and no error of its own. -/
def Emits (emission : Emission α ε) (ws : List (Write α)) : Prop :=
  ∀ (σ : Type) (write : σ → ℕ → List α → Except ε σ) (s : σ), emission σ write s = writeAll write ws s

/-- What the writes of an emission satisfy once some sink has taken them. -/
def Yields (emission : Emission α ε) (P : List (Write α) → Prop) : Prop :=
  ∀ (σ : Type) (write : σ → ℕ → List α → Except ε σ) (s s' : σ), emission σ write s = .ok s' → ∃ ws, Emits emission ws ∧ P ws

section

variable {e e' : Emission α ε} {P Q : List (Write α) → Prop} {step : β → Emission α ε}

theorem Yields.imp (h : Yields e P) (hPQ : ∀ ws, P ws → Q ws) : Yields e Q := by
  intro σ write s s' hrun
  obtain ⟨ws, hemits, hP⟩ := h σ write s s' hrun
  exact ⟨ws, hemits, hPQ ws hP⟩

theorem Yields.done (h : P []) : Yields (fun _ _ s => .ok s : Emission α ε) P :=
  fun _ _ _ _ _ => ⟨[], fun _ _ _ => rfl, h⟩

theorem Yields.write {start : ℕ} {items : List α} (h : P [⟨start, items⟩]) : Yields (fun _ write s => write s start items : Emission α ε) P := by
  refine fun _ _ _ _ _ => ⟨[⟨start, items⟩], fun σ write s => ?_, h⟩
  unfold writeAll
  rw [foldlM_cons]
  change write s start items = write s start items >>= fun s => .ok s
  cases write s start items <;> rfl

theorem Yields.after {β : Type} {x : Except ε β} {e : β → Emission α ε} (h : ∀ b, x = .ok b → Yields (e b) P) :
    Yields (fun σ write s => x >>= fun b => e b σ write s : Emission α ε) P := by
  intro σ write s s' hrun
  cases hx : x with
  | error error => simp [hx, Bind.bind, Except.bind] at hrun
  | ok b =>
    have hrest : e b σ write s = .ok s' := by simpa [hx, Bind.bind, Except.bind] using hrun
    obtain ⟨ws, hemits, hP⟩ := h b hx σ write s s' hrest
    exact ⟨ws, hemits, hP⟩

theorem Yields.bind (h : Yields e P) (h' : Yields e' Q) :
    Yields (fun σ write s => e σ write s >>= e' σ write : Emission α ε) fun ws => ∃ us vs, ws = us ++ vs ∧ P us ∧ Q vs := by
  intro σ write s s' hrun
  cases hmid : e σ write s with
  | error error => simp [hmid, Bind.bind, Except.bind] at hrun
  | ok mid =>
    obtain ⟨us, hus, hP⟩ := h σ write s mid hmid
    have hrest : e' σ write mid = .ok s' := by simpa [hmid, Bind.bind, Except.bind] using hrun
    obtain ⟨vs, hvs, hQ⟩ := h' σ write mid s' hrest
    refine ⟨us ++ vs, fun σ write s => ?_, us, vs, rfl, hP, hQ⟩
    change e σ write s >>= e' σ write = _
    rw [writeAll_append, ← hus]
    congr 1
    funext t
    exact hvs σ write t

/-- **A loop of emissions**: every pass writes its own part. -/
theorem Yields.foldlM {R : β → List (Write α) → Prop} (h : ∀ x ∈ l, Yields (step x) (R x)) :
    Yields (fun σ write s => l.foldlM (fun s x => step x σ write s) s : Emission α ε) fun ws =>
      ∃ wss : List (List (Write α)), wss.flatten = ws ∧ Forall₂ R l wss := by
  induction l with
  | nil => exact Yields.done ⟨[], rfl, .nil⟩
  | cons x l ih =>
    have hstep := (h x mem_cons_self).bind (ih fun y hy => h y (mem_cons_of_mem x hy))
    apply hstep.imp
    rintro ws ⟨us, vs, rfl, hx, wss, rfl, hwss⟩
    exact ⟨us :: wss, rfl, .cons hx hwss⟩

theorem Yields.foldlM_write {w : β → Write α} {R : β → Prop} (h : ∀ x ∈ l, Yields (step x) fun ws => ws = [w x] ∧ R x) :
    Yields (fun σ write s => l.foldlM (fun s x => step x σ write s) s : Emission α ε) fun ws => ws = l.map w ∧ ∀ x ∈ l, R x := by
  apply (Yields.foldlM h).imp
  rintro ws ⟨wss, rfl, hwss⟩
  induction hwss with
  | nil => simp
  | @cons x us l wss hx _ ih =>
    obtain ⟨hrest, hR⟩ := ih fun y hy => h y (mem_cons_of_mem x hy)
    obtain ⟨rfl, hx⟩ := hx
    refine ⟨by rw [flatten_cons, hrest]; rfl, fun y hy => ?_⟩
    rcases mem_cons.1 hy with rfl | hy
    · exact hx
    · exact hR y hy

end

end Akita.Lib
