import Akita.Lib.Numerals

/-!
# Listing and summarising

One program writes events into a list, another keeps only a summary of them. The second
`Summarises` the first when, wherever the events the first lists can be taken into the
summary one by one, the second ends in that summary with the same value. The rules follow
the constructors of a program.
-/

namespace Akita.Lib

open List

variable {ε ρ τ α β γ : Type} {r : γ → Except ε ρ} {u : Unit} {l : List γ} {events : List ρ} {e : ρ} {g : γ → ρ}
  {σ : Type} {push : ρ → StateT σ (Except ε) Unit} {s t : σ}

theorem stateT_bind_ok {x : StateT σ (Except ε) α} {f : α → StateT σ (Except ε) β} {b : β} :
    (x >>= f) s = .ok (b, t) ↔ ∃ a m, x s = .ok (a, m) ∧ f a m = .ok (b, t) := by
  have h : (x >>= f) s = (x s).bind fun p => f p.1 p.2 := rfl
  rw [h]
  cases x s with
  | error e => simp [Except.bind]
  | ok p => simp [Except.bind, Prod.ext_iff]

theorem stateT_pure_ok {a b : α} : (pure a : StateT σ (Except ε) α) s = .ok (b, t) ↔ a = b ∧ s = t := by
  have h : (pure a : StateT σ (Except ε) α) s = .ok (a, s) := rfl
  rw [h]
  simp

theorem stateT_lift_ok {r : Except ε α} {b : α} :
    (liftM r : StateT σ (Except ε) α) s = .ok (b, t) ↔ r = .ok b ∧ s = t := by
  have h : (liftM r : StateT σ (Except ε) α) s = r.bind fun a => .ok (a, s) := rfl
  rw [h]
  cases r <;> simp [Except.bind]

/-- A loop that computes an event and hands it on succeeds when all events are computed and then
all are handed on. -/
theorem forM_lift_ok (l : List γ) : (l.forM fun c => (liftM (r c) : StateT σ (Except ε) ρ) >>= push) s = .ok (u, t) ↔
      ∃ events, l.mapM r = .ok events ∧ events.forM push s = .ok (u, t) := by
  induction l generalizing s with
  | nil =>
    have hnil : ([] : List γ).mapM r = .ok [] := rfl
    simp only [hnil, Except.ok.injEq, exists_eq_left']
    rfl
  | cons c l ih =>
    have hcons : (c :: l).mapM r = (r c).bind fun e => (l.mapM r).bind fun es => .ok (e :: es) := by
      rw [mapM_cons]
      rfl
    have hloop : ((c :: l).forM fun c => (liftM (r c) : StateT σ (Except ε) ρ) >>= push) =
        (liftM (r c) >>= push) >>= fun _ => l.forM fun c => liftM (r c) >>= push := rfl
    rw [hcons, hloop]
    simp only [stateT_bind_ok, stateT_lift_ok, ih]
    constructor
    · rintro ⟨_, m, ⟨e, _, ⟨he, rfl⟩, hpush⟩, events, hevents, hrest⟩
      refine ⟨e :: events, by simp [he, hevents, Except.bind], ?_⟩
      exact stateT_bind_ok.2 ⟨(), m, hpush, hrest⟩
    · rintro ⟨events, hevents, hrest⟩
      cases he : r c with
      | error x => simp [he, Except.bind] at hevents
      | ok e =>
        cases hes : l.mapM r with
        | error x => simp [he, hes, Except.bind] at hevents
        | ok es =>
          simp only [he, hes, Except.bind, Except.ok.injEq] at hevents
          subst hevents
          obtain ⟨_, m, hpush, hrest⟩ := stateT_bind_ok.1 hrest
          exact ⟨(), m, ⟨e, s, ⟨rfl, rfl⟩, hpush⟩, es, rfl, hrest⟩

theorem forM_foldlM {step : σ → ρ → Except ε σ}
    (hpush : ∀ e s t u, push e s = .ok (u, t) ↔ step s e = .ok t) (events : List ρ) :
    events.forM push s = .ok (u, t) ↔ events.foldlM step s = .ok t := by
  induction events generalizing s with
  | nil =>
    have hnil : ([] : List ρ).forM push s = .ok ((), s) := rfl
    simp [hnil, pure, Except.pure]
  | cons e events ih =>
    have hloop : (e :: events).forM push = push e >>= fun _ => events.forM push := rfl
    rw [hloop, stateT_bind_ok, foldlM_cons]
    cases he : step s e with
    | error x => simp [hpush, he, bind, Except.bind]
    | ok m =>
      simp only [hpush, he, Except.ok.injEq, exists_eq_left', ih, exists_const]
      rfl

theorem mem_of_mapM_ok (h : l.mapM r = .ok events) {c : γ} (hc : c ∈ l) : ∃ e ∈ events, r c = .ok e := by
  induction l generalizing events with
  | nil => simp at hc
  | cons d l ih =>
    rw [mapM_cons] at h
    cases he : r d with
    | error x => simp [he, bind, Except.bind] at h
    | ok e =>
      cases hes : l.mapM r with
      | error x => simp [he, hes, bind, Except.bind] at h
      | ok es =>
        simp only [he, hes, bind, Except.bind, pure, Except.pure, Except.ok.injEq] at h
        subst h
        rcases mem_cons.1 hc with rfl | hc
        · exact ⟨e, by simp, he⟩
        · obtain ⟨e', he', hr⟩ := ih hes hc
          exact ⟨e', by simp [he'], hr⟩

/-- A list built item by item pairs every item with its result. -/
theorem forall₂_of_mapM (h : l.mapM r = .ok events) : Forall₂ (fun c e => r c = .ok e) l events := by
  induction l generalizing events with
  | nil =>
    obtain rfl : [] = events := by simpa [mapM_nil, pure, Except.pure] using h
    exact List.Forall₂.nil
  | cons c l ih =>
    rw [mapM_cons] at h
    cases he : r c with
    | error x => simp [he, bind, Except.bind] at h
    | ok e =>
      cases hes : l.mapM r with
      | error x => simp [he, hes, bind, Except.bind] at h
      | ok es =>
        simp only [he, hes, bind, Except.bind, pure, Except.pure, Except.ok.injEq] at h
        subst h
        exact List.Forall₂.cons he (ih hes)

theorem exists_of_mem_forall₂ {R : γ → ρ → Prop} (h : Forall₂ R l events) (he : e ∈ events) : ∃ c ∈ l, R c e := by
  induction h with
  | nil => simp at he
  | @cons c _ _ _ hc _ ih =>
    rcases mem_cons.1 he with rfl | he
    · exact ⟨c, by simp, hc⟩
    · obtain ⟨d, hd, hr⟩ := ih he
      exact ⟨d, by simp [hd], hr⟩

theorem exists_of_mem_mapM (h : l.mapM r = .ok events) (he : e ∈ events) :
    ∃ c ∈ l, r c = .ok e := exists_of_mem_forall₂ (R := fun c e => r c = .ok e) (forall₂_of_mapM h) he

/-- A list built index by index holds the result of every index. -/
theorem forall_of_mapM_range [Zero ρ] {n : ℕ} {f : ℕ → Except ε ρ} {l : List ρ} (h : (range n).mapM f = .ok l) :
    l.length = n ∧ ∀ i < n, f i = .ok (l.getD i 0) := by
  have hf := forall₂_of_mapM h
  have hlen : l.length = n := by simpa using hf.length_eq.symm
  refine ⟨hlen, fun i hi => ?_⟩
  have hi' : i < l.length := by omega
  have hget := forall₂_iff_get.1 hf |>.2 i (by simpa using hi) hi'
  simpa [getD_eq_getElem?_getD, getElem?_eq_getElem hi'] using hget

theorem mapM_ok_of_forall (h : ∀ c ∈ l, r c = .ok (g c)) : l.mapM r = .ok (l.map g) := by
  induction l with
  | nil => rfl
  | cons c l ih =>
    rw [mapM_cons, h c (by simp), ih fun d hd => h d (by simp [hd])]
    rfl

/-- A loop that succeeds exactly on the members in range, with a known result for each. -/
theorem mapM_iff_forall {P : γ → Prop} (h : ∀ c ∈ l, ∀ e, r c = .ok e ↔ P c ∧ e = g c) :
    l.mapM r = .ok events ↔ (∀ c ∈ l, P c) ∧ events = l.map g := by
  constructor
  · intro hrun
    have hP : ∀ c ∈ l, P c := by
      intro c hc
      obtain ⟨e, -, he⟩ := mem_of_mapM_ok hrun hc
      exact ((h c hc e).1 he).1
    refine ⟨hP, ?_⟩
    rw [mapM_ok_of_forall fun c hc => (h c hc _).2 ⟨hP c hc, rfl⟩] at hrun
    exact (Except.ok.inj hrun).symm
  · rintro ⟨hP, rfl⟩
    exact mapM_ok_of_forall fun c hc => (h c hc _).2 ⟨hP c hc, rfl⟩

theorem mapM_parts {ls : List (List γ)} :
    (ls.mapM fun l => l.mapM r) >>= (fun parts => .ok parts.flatten) = ls.flatten.mapM r := by
  induction ls with
  | nil => rfl
  | cons l ls ih =>
    rw [flatten_cons, mapM_append, ← ih, mapM_cons]
    simp only [bind_assoc, pure_bind]
    rfl

section

-- `step` takes one event into a summary
variable (step : τ → ρ → Except ε τ)

/-- `y` summarises what `x` lists. -/
def Summarises (x : StateT (List ρ) (Except ε) α) (y : StateT τ (Except ε) α) : Prop :=
  ∀ l a l', x l = .ok (a, l') → ∃ new, l' = l ++ new ∧ ∀ s t, new.foldlM step s = .ok t → y s = .ok (a, t)

namespace Summarises

variable {step} {x : StateT (List ρ) (Except ε) α} {y : StateT τ (Except ε) α}

theorem pure (a : α) : Summarises step (Pure.pure a) (Pure.pure a) := by
  intro l b l' h
  obtain ⟨rfl, rfl⟩ := stateT_pure_ok.1 h
  refine ⟨[], by simp, fun s t hs => ?_⟩
  have hst : s = t := by simpa [Pure.pure, Except.pure] using hs
  exact stateT_pure_ok.2 ⟨rfl, hst⟩

theorem lift (r : Except ε α) : Summarises step (liftM r) (liftM r) := by
  intro l b l' h
  obtain ⟨hr, rfl⟩ := stateT_lift_ok.1 h
  refine ⟨[], by simp, fun s t hs => ?_⟩
  have hst : s = t := by simpa [Pure.pure, Except.pure] using hs
  exact stateT_lift_ok.2 ⟨hr, hst⟩

theorem bind {f : α → StateT (List ρ) (Except ε) β} {g : α → StateT τ (Except ε) β} (hx : Summarises step x y)
    (hf : ∀ a, Summarises step (f a) (g a)) : Summarises step (x >>= f) (y >>= g) := by
  intro l b l' h
  obtain ⟨a, m, h1, h2⟩ := stateT_bind_ok.1 h
  obtain ⟨new, rfl, hnew⟩ := hx l a m h1
  obtain ⟨new', rfl, hnew'⟩ := hf a _ b l' h2
  refine ⟨new ++ new', by simp, fun s t hs => ?_⟩
  rw [foldlM_append] at hs
  cases hm : new.foldlM step s with
  | error e => simp [hm, Bind.bind, Except.bind] at hs
  | ok m =>
    rw [hm] at hs
    exact stateT_bind_ok.2 ⟨a, m, hnew s m hm, hnew' m t hs⟩

theorem ite {p : Prop} [Decidable p] {x' : StateT (List ρ) (Except ε) α} {y' : StateT τ (Except ε) α}
    (h : Summarises step x y) (h' : Summarises step x' y') :
    Summarises step (if p then x else x') (if p then y else y') := by
  by_cases hp : p
  · simpa [hp] using h
  · simpa [hp] using h'

theorem forM {f : γ → StateT (List ρ) (Except ε) Unit} {g : γ → StateT τ (Except ε) Unit}
    (h : ∀ c, Summarises step (f c) (g c)) (l : List γ) : Summarises step (l.forM f) (l.forM g) := by
  induction l with
  | nil => exact Summarises.pure ()
  | cons c l ih => exact (h c).bind fun _ => ih

end Summarises

end

end Akita.Lib
