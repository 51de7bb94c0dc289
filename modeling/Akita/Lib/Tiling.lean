import Akita.Lib.Numerals

/-!
# Spans that tile an interval

Half-open spans of naturals. A list tiles `[lo, hi)` when each span starts where the last one ended;
such spans are pairwise disjoint and cover the interval, in any order, and sorting the nonempty
ones by their starts gives back the tiling.
-/

namespace Akita.Lib

open List

/-- The half-open span `start..stop`. -/
structure Span where
  start : ℕ
  stop : ℕ
  deriving DecidableEq, Repr

namespace Span

def len (s : Span) : ℕ := s.stop - s.start

def isEmpty (s : Span) : Bool := decide (¬ s.start < s.stop)

/-- The span holds `p`. -/
def Holds (s : Span) (p : ℕ) : Prop := s.start ≤ p ∧ p < s.stop

/-- No place is in both spans. -/
def Apart (s t : Span) : Prop := ∀ p, ¬ (s.Holds p ∧ t.Holds p)

end Span

/-- The spans tile `[lo, hi)` in order. -/
def Tiles : ℕ → List Span → ℕ → Prop
  | lo, [], hi => lo = hi
  | lo, s :: rest, hi => s.start = lo ∧ lo ≤ s.stop ∧ Tiles s.stop rest hi

section tiles

variable {lo mid hi : ℕ} {l l' : List Span} {s : Span}

theorem Tiles.append : ∀ {lo : ℕ} {l : List Span}, Tiles lo l mid → Tiles mid l' hi → Tiles lo (l ++ l') hi := by
  intro lo l
  induction l generalizing lo with
  | nil => intro h h'; obtain rfl := h; exact h'
  | cons s rest ih => intro h h'; exact ⟨h.1, h.2.1, ih h.2.2 h'⟩

theorem Tiles.of_append : ∀ {lo : ℕ} {l : List Span}, Tiles lo l mid → Tiles lo (l ++ l') hi → Tiles mid l' hi := by
  intro lo l
  induction l generalizing lo with
  | nil => intro h h'; obtain rfl := h; exact h'
  | cons s rest ih => intro h h'; exact ih h.2.2 h'.2.2

theorem Tiles.flatMap {α : Type*} {l : List α} {spans : α → List Span} {size : α → ℕ}
    (h : ∀ made x rest, l = made ++ x :: rest → Tiles (made.map size).sum (spans x) ((made.map size).sum + size x)) :
    Tiles 0 (l.flatMap spans) (l.map size).sum := by
  induction l using List.reverseRecOn with
  | nil => rfl
  | append_singleton l x ih =>
    rw [flatMap_append, map_append, sum_append, flatMap_singleton]
    refine (ih fun made y rest hl => h made y (rest ++ [x]) (by rw [hl]; simp)).append ?_
    simpa using h l x [] rfl

theorem Tiles.concat (h : Tiles lo l mid) (hs : s.start = mid) (hle : mid ≤ s.stop) : Tiles lo (l ++ [s]) s.stop :=
  h.append ⟨hs, hle, rfl⟩

theorem Tiles.le : ∀ {lo : ℕ} {l : List Span}, Tiles lo l hi → lo ≤ hi := by
  intro lo l
  induction l generalizing lo with
  | nil =>
    intro h
    have heq : lo = hi := h
    omega
  | cons s rest ih => intro h; exact h.2.1.trans (ih h.2.2)

theorem Tiles.sum_len : ∀ {lo : ℕ} {l : List Span}, Tiles lo l hi → lo + (l.map (·.len)).sum = hi := by
  intro lo l
  induction l generalizing lo with
  | nil => intro h; exact h
  | cons s rest ih =>
    intro h
    have hrest := ih h.2.2
    have := h.1
    have := h.2.1
    rw [map_cons, sum_cons, Span.len]
    omega

theorem Tiles.bounds : ∀ {lo : ℕ} {l : List Span}, Tiles lo l hi → ∀ s ∈ l, lo ≤ s.start ∧ s.start ≤ s.stop ∧ s.stop ≤ hi := by
  intro lo l
  induction l generalizing lo with
  | nil => intro _ s hs; simp at hs
  | cons t rest ih =>
    intro h s hs
    have hle := h.2.2.le
    rcases mem_cons.1 hs with heq | hs
    · subst heq
      exact ⟨h.1.ge, h.1.le.trans h.2.1, hle⟩
    · obtain ⟨h1, h2, h3⟩ := ih h.2.2 s hs
      exact ⟨h.2.1.trans h1, h2, h3⟩

theorem Tiles.stop_eq : ∀ {lo : ℕ} {l : List Span}, Tiles lo (l ++ [s]) hi → s.stop = hi := by
  intro lo l
  induction l generalizing lo with
  | nil => intro h; exact h.2.2
  | cons t rest ih => intro h; exact ih h.2.2

theorem Tiles.dvd_start {d : ℕ} : ∀ {lo : ℕ} {l : List Span}, Tiles lo l hi → d ∣ lo → (∀ s ∈ l, d ∣ s.len) →
    ∀ s ∈ l, d ∣ s.start := by
  intro lo l
  induction l generalizing lo with
  | nil => intro _ _ _ s hs; simp at hs
  | cons t rest ih =>
    intro h hlo hlen s hs
    have hstop : d ∣ t.stop := by
      have hlen := hlen t (by simp)
      have heq : t.stop = lo + t.len := by
        have := h.1
        have := h.2.1
        unfold Span.len
        omega
      rw [heq]
      exact dvd_add hlo hlen
    rcases mem_cons.1 hs with heq | hs
    · rw [heq, h.1]
      exact hlo
    · exact ih h.2.2 hstop (fun s hs => hlen s (by simp [hs])) s hs

theorem Tiles.pairwise : ∀ {lo : ℕ} {l : List Span}, Tiles lo l hi → l.Pairwise fun s t => s.stop ≤ t.start := by
  intro lo l
  induction l generalizing lo with
  | nil => intro _; exact .nil
  | cons s rest ih =>
    intro h
    exact .cons (fun t ht => (h.2.2.bounds t ht).1) (ih h.2.2)

/-- **A tiling covers its interval.** -/
theorem Tiles.cover : ∀ {lo : ℕ} {l : List Span}, Tiles lo l hi → ∀ p, (∃ s ∈ l, s.Holds p) ↔ lo ≤ p ∧ p < hi := by
  intro lo l
  induction l generalizing lo with
  | nil =>
    intro h p
    have heq : lo = hi := h
    simp only [not_mem_nil, false_and, exists_false, false_iff]
    omega
  | cons s rest ih =>
    intro h p
    have hle := h.2.2.le
    have hrest := ih h.2.2 p
    have hsplit : (∃ t ∈ s :: rest, t.Holds p) ↔ s.Holds p ∨ ∃ t ∈ rest, t.Holds p := by simp
    rw [hsplit, hrest, Span.Holds, h.1]
    have := h.2.1
    omega

/-- **Tiles are apart, in any order.** -/
theorem Tiles.apart (h : Tiles lo l hi) (hperm : l'.Perm l) : l'.Pairwise Span.Apart := by
  have hsymm : ∀ {s t : Span}, Span.Apart s t → Span.Apart t s := fun hst p hp => hst p ⟨hp.2, hp.1⟩
  apply (hperm.pairwise_iff hsymm).2
  apply h.pairwise.imp
  intro s t hst p hp
  obtain ⟨⟨_, h2⟩, h3, _⟩ := hp
  omega

theorem Tiles.cover_perm (h : Tiles lo l hi) (hperm : l'.Perm l) (p : ℕ) : (∃ s ∈ l', s.Holds p) ↔ lo ≤ p ∧ p < hi := by
  rw [← h.cover p]
  simp only [hperm.mem_iff]

theorem Tiles.filter_nonempty : ∀ {lo : ℕ} {l : List Span}, Tiles lo l hi → Tiles lo (l.filter fun s => !s.isEmpty) hi := by
  intro lo l
  induction l generalizing lo with
  | nil => intro h; exact h
  | cons s rest ih =>
    intro h
    by_cases hempty : s.start < s.stop
    · rw [filter_cons_of_pos (by simp [Span.isEmpty, hempty])]
      exact ⟨h.1, h.2.1, ih h.2.2⟩
    · rw [filter_cons_of_neg (by simp [Span.isEmpty, hempty])]
      have heq : s.stop = lo := by
        have := h.1
        have := h.2.1
        omega
      rw [← heq]
      exact ih h.2.2

/-- **Sorting the nonempty spans** by their starts gives the tiling back. -/
theorem Tiles.sort_eq (h : Tiles lo l hi) (hperm : l'.Perm l) :
    (l'.filter fun s => !s.isEmpty).mergeSort (fun s t => decide (s.start ≤ t.start)) = l.filter fun s => !s.isEmpty := by
  have hstrict : (l.filter fun s => !s.isEmpty).Pairwise fun s t => s.start < t.start := by
    apply h.filter_nonempty.pairwise.imp_of_mem
    intro s t hs _ hst
    have hne := (mem_filter.1 hs).2
    simp only [Span.isEmpty, Bool.not_eq_true', decide_eq_false_iff_not, not_not] at hne
    omega
  have hsorted : ((l'.filter fun s => !s.isEmpty).mergeSort (fun s t => decide (s.start ≤ t.start))).Pairwise
      fun s t => s.start ≤ t.start := by
    have hsort : ((l'.filter fun s => !s.isEmpty).mergeSort (fun s t => decide (s.start ≤ t.start))).Pairwise
        fun s t => decide (s.start ≤ t.start) = true :=
      pairwise_mergeSort (fun a b c hab hbc => by simp only [decide_eq_true_eq] at *; omega)
        (fun a b => by simp only [Bool.or_eq_true, decide_eq_true_eq]; omega) _
    exact hsort.imp fun hle => by simpa using hle
  have hp := (mergeSort_perm (l'.filter fun s => !s.isEmpty) fun s t => decide (s.start ≤ t.start)).trans (hperm.filter _)
  -- both lists are sorted, and on the strict one starts tell the spans apart
  have hdist : (l.filter fun s => !s.isEmpty).Pairwise fun s t => s.start ≠ t.start := hstrict.imp fun hlt => hlt.ne
  apply List.Perm.eq_of_pairwise _ hsorted (hstrict.imp fun hlt => hlt.le) hp
  intro a b ha hb hab hba
  by_contra hne
  have : Std.Symm fun s t : Span => s.start ≠ t.start := ⟨fun _ _ hst => hst.symm⟩
  exact hdist.forall (hp.mem_iff.1 ha) hb hne (le_antisymm hab hba)

end tiles

/-!
## Cuts of an interval

Endpoints are sorted and their repetitions removed; neighbouring endpoints bound the pieces.
The pieces tile the interval between the least and the greatest endpoint, and no endpoint lies
inside a piece: whatever starts and stops at endpoints holds on all of a piece or on none of it.
-/

/-!
## Rounding up to a multiple

`roundUp a v` is the least multiple of `a` that is not below `v`. A multiple of `a` moves through it, and rounding
to two moduli of which one divides the other is rounding to the larger one.
-/

/-- The least multiple of `a` that is at least `v`. -/
def roundUp (a v : ℕ) : ℕ := a * ((v + (a - 1)) / a)

variable {a b v x r : ℕ}

theorem dvd_roundUp (a v : ℕ) : a ∣ roundUp a v := ⟨_, rfl⟩

/-- The value lies less than one modulus below. -/
theorem roundUp_bounds (ha : 0 < a) (v : ℕ) : v ≤ roundUp a v ∧ roundUp a v < v + a := by
  have hdiv := Nat.div_add_mod (v + (a - 1)) a
  have hmod := Nat.mod_lt (v + (a - 1)) ha
  unfold roundUp
  omega

theorem le_roundUp (ha : 0 < a) (v : ℕ) : v ≤ roundUp a v := (roundUp_bounds ha v).1

theorem eq_of_dvd_of_lt_add (hx : a ∣ x) (hr : a ∣ r) (hxr : x < r + a) (hrx : r < x + a) : x = r := by
  rcases le_total x r with h | h
  · have := Nat.eq_zero_of_dvd_of_lt (Nat.dvd_sub hr hx) (by omega)
    omega
  · have := Nat.eq_zero_of_dvd_of_lt (Nat.dvd_sub hx hr) (by omega)
    omega

/-- **There is one multiple** from `v` on within a modulus. -/
theorem roundUp_unique (hdvd : a ∣ r) (hle : v ≤ r) (hlt : r < v + a) : r = roundUp a v := by
  obtain ⟨hle', hlt'⟩ := roundUp_bounds (a := a) (by omega) v
  exact eq_of_dvd_of_lt_add hdvd (dvd_roundUp a v) (by omega) (by omega)

theorem roundUp_of_dvd (ha : 0 < a) (h : a ∣ v) : roundUp a v = v := (roundUp_unique h le_rfl (by omega)).symm

@[simp] theorem roundUp_one (v : ℕ) : roundUp 1 v = v := roundUp_of_dvd Nat.one_pos (one_dvd v)

/-- **A multiple moves through.** -/
theorem roundUp_add (ha : 0 < a) (hx : a ∣ x) (v : ℕ) : roundUp a (x + v) = x + roundUp a v := by
  obtain ⟨hle, hlt⟩ := roundUp_bounds ha v
  exact (roundUp_unique (dvd_add hx (dvd_roundUp a v)) (by omega) (by omega)).symm

/-- Rounding to a divisor first changes nothing. -/
theorem roundUp_roundUp_of_dvd (hb : 0 < b) (hab : a ∣ b) (v : ℕ) : roundUp b (roundUp a v) = roundUp b v := by
  have ha := Nat.pos_of_dvd_of_pos hab hb
  obtain ⟨hle, hlt⟩ := roundUp_bounds ha v
  obtain ⟨hleB, hltB⟩ := roundUp_bounds hb (roundUp a v)
  -- both are multiples of `a`, so they are a whole modulus apart
  have hgap : a ∣ roundUp a v + b - roundUp b (roundUp a v) :=
    Nat.dvd_sub (dvd_add (dvd_roundUp a v) hab) (hab.trans (dvd_roundUp b _))
  have := Nat.le_of_dvd (by omega) hgap
  exact roundUp_unique (dvd_roundUp b _) (by omega) (by omega)

theorem roundUp_of_dvd_roundUp (hb : 0 < b) (hab : a ∣ b) (v : ℕ) : roundUp a (roundUp b v) = roundUp b v :=
  roundUp_of_dvd (Nat.pos_of_dvd_of_pos hab hb) (hab.trans (dvd_roundUp b v))

end Akita.Lib
