import Akita.Lib.Numerals

/-!
# Fallible operations on a state

Operations `EStateM ε σ α`: a failed one still leaves a state behind. `Traps bad m`: a
failure of `m` ends in a bad state and bad states stay bad, so that after one failure no
sequence of trapping operations leads back (`Traps.runAll`). `Takes inv rest taken m`: a
success of `m` takes `taken` off the front of what the state has left, so a run of operations
that takes off everything is one without a failure and with nothing left (`Takes.runAll`).
`SameEnd R x y`: two runs end with one value or one error, in states related by `R`.
-/

/-!
## Simulation of fallible computations

`Simulates R x y`: every success of `x` is matched by a success of `y`, with results in the relation `R`.
`Agrees R x y`: where both succeed, the results are in `R`. The rules follow the shape of a program: a sequence, a step
that both sides share, a branch, and a loop over one list.
-/

namespace Akita.Lib

open List

section

variable {ε α β γ δ σ τ : Type} {a : α} {b : β} {x : Except ε α} {y : Except ε β} {f : α → Except ε γ} {g : β → Except ε δ}
  {l : List α}

/-- A success of `x` is matched by one of `y`. -/
def Simulates (R : α → β → Prop) (x : Except ε α) (y : Except ε β) : Prop := ∀ a, x = .ok a → ∃ b, y = .ok b ∧ R a b

namespace Simulates

variable {R : α → β → Prop} {Q : γ → δ → Prop}

theorem ok (h : R a b) : Simulates R (.ok a : Except ε α) (.ok b) := by
  intro a' ha
  cases ha
  exact ⟨b, rfl, h⟩

/-- A sequence is simulated step by step. -/
theorem bind (h : Simulates R x y) (hk : ∀ a b, x = .ok a → y = .ok b → R a b → Simulates Q (f a) (g b)) :
    Simulates Q (x >>= f) (y >>= g) := by
  intro c hc
  cases hx : x with
  | error e => simp [hx, Bind.bind, Except.bind] at hc
  | ok a =>
    obtain ⟨b, hb, hR⟩ := h a hx
    rw [hx] at hc
    obtain ⟨d, hd, hQ⟩ := hk a b hx hb hR c hc
    exact ⟨d, by rw [hb]; exact hd, hQ⟩

/-- A step that both sides share. -/
theorem share {x : Except ε σ} {f : σ → Except ε γ} {g : σ → Except ε δ} (hk : ∀ s, x = .ok s → Simulates Q (f s) (g s)) :
    Simulates Q (x >>= f) (x >>= g) := by
  refine bind (R := Eq) (fun s hs => ⟨s, hs, rfl⟩) fun s t hs _ heq => ?_
  subst heq
  exact hk s hs

/-- **Loops over one list**, pass by pass. -/
theorem foldlM {R : σ → τ → Prop} {f : σ → α → Except ε σ} {g : τ → α → Except ε τ}
    (h : ∀ x ∈ l, ∀ s t, R s t → Simulates R (f s x) (g t x)) : ∀ {s t}, R s t → Simulates R (l.foldlM f s) (l.foldlM g t) := by
  induction l with
  | nil => exact fun hst => ok hst
  | cons x l ih =>
    intro s t hst
    rw [foldlM_cons, foldlM_cons]
    exact bind (h x mem_cons_self s t hst) fun _ _ _ _ hst' => ih (fun y hy => h y (mem_cons_of_mem x hy)) hst'

end Simulates

/-! ### Agreement -/

/-- Where both computations succeed, their results are in the relation. -/
def Agrees (R : α → β → Prop) (x : Except ε α) (y : Except ε β) : Prop := ∀ a b, x = .ok a → y = .ok b → R a b

namespace Agrees

variable {R : α → β → Prop} {Q : γ → δ → Prop}

theorem ok (h : R a b) : Agrees R (.ok a : Except ε α) (.ok b) := by
  intro a' b' ha hb
  cases ha
  cases hb
  exact h

/-- Sequences agree step by step. -/
theorem bind (h : Agrees R x y) (hk : ∀ a b, x = .ok a → y = .ok b → R a b → Agrees Q (f a) (g b)) :
    Agrees Q (x >>= f) (y >>= g) := by
  intro c d hc hd
  cases hx : x with
  | error e => simp [hx, Bind.bind, Except.bind] at hc
  | ok a =>
    cases hy : y with
    | error e => simp [hy, Bind.bind, Except.bind] at hd
    | ok b =>
      rw [hx] at hc
      rw [hy] at hd
      exact hk a b hx hy (h a b hx hy) c d hc hd

/-- A step that both sides share. -/
theorem share {x : Except ε σ} {f : σ → Except ε γ} {g : σ → Except ε δ} (hk : ∀ s, x = .ok s → Agrees Q (f s) (g s)) :
    Agrees Q (x >>= f) (x >>= g) := by
  refine bind (R := Eq) (fun s t hs ht => Except.ok.inj (hs.symm.trans ht)) fun s t hs _ heq => ?_
  subst heq
  exact hk s hs

/-- **Loops over one list**, pass by pass. -/
theorem foldlM {R : σ → τ → Prop} {f : σ → α → Except ε σ} {g : τ → α → Except ε τ}
    (h : ∀ x ∈ l, ∀ s t, R s t → Agrees R (f s x) (g t x)) : ∀ {s t}, R s t → Agrees R (l.foldlM f s) (l.foldlM g t) := by
  induction l with
  | nil => exact fun hst => ok hst
  | cons x l ih =>
    intro s t hst
    rw [foldlM_cons, foldlM_cons]
    exact bind (h x mem_cons_self s t hst) fun _ _ _ _ hst' => ih (fun y hy => h y (mem_cons_of_mem x hy)) hst'

end Agrees

end

open EStateM (run run_bind)

variable {ε σ α β : Type} {x : EStateM ε σ α} {f : α → EStateM ε σ β} {s t : σ}

theorem run_bind_ok {b : β} : (x >>= f).run s = .ok b t ↔ ∃ a u, x.run s = .ok a u ∧ (f a).run u = .ok b t := by
  rw [run_bind]
  cases x.run s <;> simp

/-- The state an operation leaves, whether or not it failed. -/
def stateAfter (m : EStateM ε σ α) (s : σ) : σ :=
  match m.run s with
  | .ok _ t => t
  | .error _ t => t

/-- Failures end in a bad state, and bad states stay bad. -/
def Traps (bad : σ → Prop) (m : EStateM ε σ α) : Prop :=
  ∀ s, (∀ a t, m.run s = .ok a t → bad s → bad t) ∧ (∀ e t, m.run s = .error e t → bad t)

namespace Traps

variable {bad : σ → Prop}

theorem pure (a : α) : Traps bad (Pure.pure a : EStateM ε σ α) := by
  intro s
  constructor
  · intro b t h hs
    simp only [EStateM.run_pure, EStateM.Result.ok.injEq] at h
    exact h.2 ▸ hs
  · intro e t h
    simp at h

theorem get : Traps bad (MonadState.get : EStateM ε σ σ) := by
  intro s
  constructor
  · intro b t h hs
    obtain ⟨-, rfl⟩ := EStateM.Result.ok.inj h
    exact hs
  · intro e t h
    exact absurd h (by rintro ⟨⟩)

theorem bind (hx : Traps bad x) (hf : ∀ a, Traps bad (f a)) : Traps bad (x >>= f) := by
  intro s
  simp only [run_bind]
  cases hr : x.run s with
  | ok a u =>
    have hu := (hx s).1 a u hr
    exact ⟨fun b t h hs => (hf a u).1 b t h (hu hs), fun e t h => (hf a u).2 e t h⟩
  | error e u =>
    refine ⟨fun b t h => by simp at h, ?_⟩
    rintro e' t h
    obtain ⟨rfl, rfl⟩ : e = e' ∧ u = t := by simpa using h
    exact (hx s).2 e u hr

theorem stateAfter {m : EStateM ε σ α} (h : Traps bad m) (hs : bad s) : bad (stateAfter m s) := by
  unfold Lib.stateAfter
  cases hr : m.run s with
  | ok a t => exact (h s).1 a t hr hs
  | error e t => exact (h s).2 e t hr

end Traps

def Keeps (P : σ → Prop) (m : EStateM ε σ α) : Prop := ∀ s a t, m.run s = .ok a t → P s → P t

/-- A success takes `taken` off the front of what is left. -/
def Takes (inv : σ → Prop) {ρ : Type} (rest : σ → List ρ) (taken : List ρ) (m : EStateM ε σ α) : Prop :=
  ∀ s a t, m.run s = .ok a t → inv s → inv t ∧ rest s = taken ++ rest t

/-- On failure, change the state the error is returned with. -/
def onError (m : EStateM ε σ α) (f : σ → σ) : EStateM ε σ α := fun s =>
  match m s with
  | .ok a t => .ok a t
  | .error e t => .error e (f t)

def zoom {τ : Type} (get : τ → σ) (set : τ → σ → τ) (m : EStateM ε σ α) : EStateM ε τ α := fun s =>
  match m (get s) with
  | .ok a t => .ok a (set s t)
  | .error e t => .error e (set s t)

section

variable {τ : Type} {P : σ → Prop} {m : EStateM ε σ α} {f : σ → σ} {a : α}

theorem run_onError_ok : (onError m f).run s = .ok a t ↔ m.run s = .ok a t := by
  simp only [onError, run]
  cases m s <;> simp

theorem run_zoom_ok {get : τ → σ} {set : τ → σ → τ} {s t : τ} :
    (zoom get set m).run s = .ok a t ↔ ∃ u, m.run (get s) = .ok a u ∧ set s u = t := by
  simp only [zoom, run]
  cases m (get s) <;> simp [eq_comm]

theorem Keeps.bind {f : α → EStateM ε σ β} (hx : Keeps P x) (hf : ∀ a, Keeps P (f a)) : Keeps P (x >>= f) := by
  intro s b t h hs
  obtain ⟨a, u, h1, h2⟩ := run_bind_ok.1 h
  exact hf a u b t h2 (hx s a u h1 hs)

theorem Traps.keeps (h : Traps P m) : Keeps P m := fun s a t hr => (h s).1 a t hr

theorem Traps.onError (hm : Keeps P m) (hf : ∀ s, P (f s)) : Traps P (onError m f) := by
  intro s
  refine ⟨fun a t h hs => hm s a t (run_onError_ok.1 h) hs, fun e t h => ?_⟩
  simp only [Lib.onError, run] at h
  split at h
  · simp at h
  · obtain ⟨-, rfl⟩ := EStateM.Result.error.inj h
    exact hf _

end

/-- However an operation ends, the state it leaves is related to the state it found. -/
def Moves (R : σ → σ → Prop) (m : EStateM ε σ α) : Prop := ∀ s, R s (stateAfter m s)

section

variable {R : σ → σ → Prop} {m : EStateM ε σ α}

theorem Moves.bind (htrans : ∀ s t u, R s t → R t u → R s u) (hx : Moves R x) (hf : ∀ a, Moves R (f a)) : Moves R (x >>= f) := by
  intro s
  have hfirst := hx s
  simp only [stateAfter, run_bind] at hfirst ⊢
  cases hr : x.run s with
  | ok a t =>
    rw [hr] at hfirst
    exact htrans _ _ _ hfirst (hf a t)
  | error e t =>
    rw [hr] at hfirst
    exact hfirst

theorem Moves.of_run (hrefl : ∀ s, R s s) (h : ∀ s, (∀ a t, m.run s = .ok a t → t = s) ∧ (∀ e t, m.run s = .error e t → t = s)) :
    Moves R m := by
  intro s
  unfold stateAfter
  cases hr : m.run s with
  | ok a t => rw [(h s).1 a t hr]; exact hrefl s
  | error e t => rw [(h s).2 e t hr]; exact hrefl s

theorem Moves.pure (hrefl : ∀ s, R s s) (a : α) : Moves R (Pure.pure a : EStateM ε σ α) := fun s => hrefl s

theorem Moves.get (hrefl : ∀ s, R s s) : Moves R (MonadState.get : EStateM ε σ σ) := fun s => hrefl s

theorem Moves.onError (htrans : ∀ s t u, R s t → R t u → R s u) {f : σ → σ} (hm : Moves R m) (hf : ∀ s, R s (f s)) :
    Moves R (onError m f) := by
  intro s
  have h := hm s
  simp only [stateAfter, run, Lib.onError] at h ⊢
  cases hr : m s with
  | ok a t =>
    rw [hr] at h
    exact h
  | error e t =>
    rw [hr] at h
    exact htrans _ _ _ h (hf t)

theorem Moves.zoom {τ : Type} {get : τ → σ} {set : τ → σ → τ} {S : τ → τ → Prop} (hm : Moves R m)
    (hset : ∀ s u, R (get s) u → S s (set s u)) : Moves S (zoom get set m) := by
  intro s
  have h := hm (get s)
  simp only [stateAfter, run, Lib.zoom] at h ⊢
  cases hr : m (get s) with
  | ok a t =>
    rw [hr] at h
    exact hset s t h
  | error e t =>
    rw [hr] at h
    exact hset s t h

end

/-- Two runs end alike: both return the same value or fail with the same error, in related states. -/
def SameEnd {τ : Type} (R : σ → τ → Prop) : EStateM.Result ε σ α → EStateM.Result ε τ α → Prop
  | .ok a s, .ok b t => a = b ∧ R s t
  | .error e s, .error f t => e = f ∧ R s t
  | .ok _ _, .error _ _ => False
  | .error _ _, .ok _ _ => False

namespace SameEnd

variable {R : σ → σ → Prop} {m m' : EStateM ε σ α} {f f' : α → EStateM ε σ β}

theorem refl (hR : ∀ s, R s s) (x : EStateM.Result ε σ α) : SameEnd R x x := by
  cases x with
  | ok a s => exact ⟨rfl, hR s⟩
  | error e s => exact ⟨rfl, hR s⟩

/-- Sequences end alike if their first parts do, and the rest from there on. -/
theorem bind (h : SameEnd R (m.run s) (m'.run t))
    (hf : ∀ a u v, m.run s = .ok a u → m'.run t = .ok a v → R u v → SameEnd R ((f a).run u) ((f' a).run v)) :
    SameEnd R ((m >>= f).run s) ((m' >>= f').run t) := by
  simp only [run_bind]
  cases hm : m.run s with
  | ok a u =>
    cases hm' : m'.run t with
    | ok b v =>
      rw [hm, hm'] at h
      obtain ⟨rfl, hR⟩ := h
      exact hf a u v hm hm' hR
    | error e v =>
      rw [hm, hm'] at h
      exact h.elim
  | error e u =>
    cases hm' : m'.run t with
    | ok b v =>
      rw [hm, hm'] at h
      exact h.elim
    | error f v =>
      rw [hm, hm'] at h
      exact h

/-- A first part that both sequences share. -/
theorem share (hR : ∀ s, R s s) (hf : ∀ a u, m.run s = .ok a u → SameEnd R ((f a).run u) ((f' a).run u)) :
    SameEnd R ((m >>= f).run s) ((m >>= f').run s) := by
  refine bind (refl hR _) fun a u v hu hv _ => ?_
  obtain ⟨-, rfl⟩ := EStateM.Result.ok.inj (hu.symm.trans hv)
  exact hf a u hu

theorem onError {f : σ → σ} (h : SameEnd R (m.run s) (m'.run t)) (hf : ∀ u v, R u v → R (f u) (f v)) :
    SameEnd R ((onError m f).run s) ((Lib.onError m' f).run t) := by
  simp only [run, Lib.onError] at h ⊢
  cases hm : m s with
  | ok a u =>
    cases hm' : m' t with
    | ok b v => rw [hm, hm'] at h; exact h
    | error e v => rw [hm, hm'] at h; exact h.elim
  | error e u =>
    cases hm' : m' t with
    | ok b v => rw [hm, hm'] at h; exact h.elim
    | error f' v => rw [hm, hm'] at h; exact ⟨h.1, hf u v h.2⟩

theorem zoom {τ : Type} {get : τ → σ} {set : τ → σ → τ} {Q : τ → τ → Prop} {s : τ}
    (h : SameEnd R (m.run (get s)) (m'.run (get s))) (hset : ∀ u v, R u v → Q (set s u) (set s v)) :
    SameEnd Q ((zoom get set m).run s) ((Lib.zoom get set m').run s) := by
  simp only [run, Lib.zoom] at h ⊢
  cases hm : m (get s) with
  | ok a u =>
    cases hm' : m' (get s) with
    | ok b v => rw [hm, hm'] at h; exact ⟨h.1, hset u v h.2⟩
    | error e v => rw [hm, hm'] at h; exact h.elim
  | error e u =>
    cases hm' : m' (get s) with
    | ok b v => rw [hm, hm'] at h; exact h.elim
    | error f v => rw [hm, hm'] at h; exact ⟨h.1, hset u v h.2⟩

end SameEnd

/-- Operations one after the other, every failure ignored. -/
def runAll (ms : List (EStateM ε σ α)) (s : σ) : σ := ms.foldl (fun s m => stateAfter m s) s

theorem Traps.runAll {bad : σ → Prop} : ∀ (ms : List (EStateM ε σ α)) (s : σ),
    (∀ m ∈ ms, Traps bad m) → bad s → bad (runAll ms s) := by
  intro ms
  induction ms with
  | nil => intro s _ hs; exact hs
  | cons m ms ih =>
    intro s hms hs
    exact ih _ (fun m' hm' => hms m' (List.mem_cons_of_mem _ hm')) ((hms m List.mem_cons_self).stateAfter hs)

/-- Operations one after the other, none of which fails. -/
def AllOk : List (EStateM ε σ α) → σ → Prop
  | [], _ => True
  | m :: ms, s => ∃ a t, m.run s = .ok a t ∧ AllOk ms t

/-- **Trapping operations remember a failure**: the run ends outside the bad states exactly when
none of them failed, and then what they took is what the run took. -/
theorem Takes.runAll {ρ : Type} {bad inv : σ → Prop} {rest : σ → List ρ} {C : Type*} (hinv : ∀ s, inv s → ¬ bad s)
    (run : C → EStateM ε σ α) (takes : C → List ρ) (htraps : ∀ c, Traps bad (run c))
    (htakes : ∀ c, Takes inv rest (takes c) (run c)) : ∀ (cs : List C) (s : σ), inv s →
    (¬ bad (Lib.runAll (cs.map run) s) ↔ AllOk (cs.map run) s) ∧
      (AllOk (cs.map run) s → inv (Lib.runAll (cs.map run) s) ∧
        rest s = cs.flatMap takes ++ rest (Lib.runAll (cs.map run) s)) := by
  intro cs
  induction cs with
  | nil => intro s hs; exact ⟨by simpa [AllOk, Lib.runAll] using hinv s hs, fun _ => ⟨hs, rfl⟩⟩
  | cons c cs ih =>
    intro s hs
    have hstep : Lib.runAll ((c :: cs).map run) s = Lib.runAll (cs.map run) (stateAfter (run c) s) := rfl
    rw [hstep]
    cases hr : (run c).run s with
    | ok a t =>
      have ht : stateAfter (run c) s = t := by simp only [stateAfter, hr]
      obtain ⟨hti, hrest⟩ := htakes c s a t hr hs
      obtain ⟨h1, h2⟩ := ih t hti
      have hall : AllOk ((c :: cs).map run) s ↔ AllOk (cs.map run) t := by
        simp [AllOk, hr]
      rw [ht, hall]
      refine ⟨h1, fun h => ⟨(h2 h).1, ?_⟩⟩
      rw [hrest, (h2 h).2, List.flatMap_cons, List.append_assoc]
    | error e t =>
      have ht : stateAfter (run c) s = t := by simp only [stateAfter, hr]
      have hbad : bad (Lib.runAll (cs.map run) t) := by
        refine Traps.runAll _ t (fun m hm => ?_) ((htraps c s).2 e t hr)
        obtain ⟨c', -, rfl⟩ := List.mem_map.1 hm
        exact htraps c'
      have hall : ¬ AllOk ((c :: cs).map run) s := by simp [AllOk, hr]
      rw [ht]
      exact ⟨⟨fun h => absurd hbad h, fun h => absurd h hall⟩, fun h => absurd h hall⟩

end Akita.Lib
