import Akita.Lib.Bits
import Akita.Lib.Summary

/-!
# Readable codes

A code is a function to strings, a reader a partial parser that returns what it left.
`Canonical p f D`: the reader `p` accepts exactly the strings that start with `f a` for
some `a` in `D`, and returns that `a`. A code with a canonical reader is prefix-free
(`PrefixFreeOn`), and prefix-free codes compose: in sequence, with a second part that
depends on the first, in lists of a fixed length, with padding.
-/

namespace Akita.Lib

open List

section

variable {α γ β : Type} {f : α → List β} {D : Set α}

/-- A partial parser: the value read and the rest of the input. -/
abbrev Reader (β α : Type) := List β → Option (α × List β)

/-- `p` accepts exactly the strings that start with the code of a value in `D`. -/
def Canonical (p : Reader β α) (f : α → List β) (D : Set α) : Prop :=
  ∀ bs a rest, p bs = some (a, rest) ↔ a ∈ D ∧ bs = f a ++ rest

/-- The code of a value in `D` can be split off the front of a string in one way only. -/
def PrefixFreeOn (f : α → List β) (D : Set α) : Prop := ∀ a ∈ D, ∀ b ∈ D, ∀ r s, f a ++ r = f b ++ s → a = b ∧ r = s

/-- Every value can be split off the front. -/
abbrev PrefixFree (f : α → List β) : Prop := PrefixFreeOn f Set.univ

theorem PrefixFreeOn.split (h : PrefixFree f) {a b : α} {r s : List β} (hrs : f a ++ r = f b ++ s) : a = b ∧ r = s :=
  h a trivial b trivial r s hrs

variable {p : Reader β α}

theorem Canonical.prefixFreeOn (h : Canonical p f D) : PrefixFreeOn f D := by
  intro a ha b hb r s hrs
  have h1 := (h (f a ++ r) a r).2 ⟨ha, rfl⟩
  have h2 := (h (f a ++ r) b s).2 ⟨hb, hrs⟩
  rw [h1] at h2
  simpa using h2

namespace PrefixFreeOn

theorem injOn (h : PrefixFreeOn f D) : Set.InjOn f D := by
  intro a ha b hb hab
  exact (h a ha b hb [] [] (by simpa using hab)).1

theorem mono {D' : Set α} (h : PrefixFreeOn f D) (hD : D' ⊆ D) : PrefixFreeOn f D' :=
  fun a ha b hb => h a (hD ha) b (hD hb)

theorem of_length (n : ℕ) (hlen : ∀ a ∈ D, (f a).length = n) (hinj : Set.InjOn f D) : PrefixFreeOn f D := by
  intro a ha b hb r s h
  obtain ⟨h1, h2⟩ := append_inj h (by rw [hlen a ha, hlen b hb])
  exact ⟨hinj ha hb h1, h2⟩

/-- Anything a value determines may follow its code. -/
theorem pad (h : PrefixFreeOn f D) (g : α → List β) : PrefixFreeOn (fun a => f a ++ g a) D := by
  intro a ha b hb r s hrs
  simp only [append_assoc] at hrs
  obtain ⟨rfl, h'⟩ := h a ha b hb _ _ hrs
  exact ⟨rfl, append_cancel_left h'⟩

theorem flatMap (h : PrefixFreeOn f D) (n : ℕ) :
    PrefixFreeOn (fun l : List α => l.flatMap f) {l | l.length = n ∧ ∀ a ∈ l, a ∈ D} := by
  induction n with
  | zero =>
    rintro l ⟨hl, -⟩ m ⟨hm, -⟩ r s hrs
    obtain rfl := length_eq_zero_iff.1 hl
    obtain rfl := length_eq_zero_iff.1 hm
    exact ⟨rfl, by simpa using hrs⟩
  | succ n ih =>
    rintro l ⟨hl, hlD⟩ m ⟨hm, hmD⟩ r s hrs
    obtain ⟨a, l, rfl⟩ := exists_cons_of_length_eq_add_one hl
    obtain ⟨b, m, rfl⟩ := exists_cons_of_length_eq_add_one hm
    simp only [flatMap_cons, append_assoc] at hrs
    obtain ⟨rfl, h'⟩ := h a (hlD a (by simp)) b (hmD b (by simp)) _ _ hrs
    obtain ⟨rfl, h''⟩ := ih l ⟨by simpa using hl, fun x hx => hlD x (by simp [hx])⟩ m
      ⟨by simpa using hm, fun x hx => hmD x (by simp [hx])⟩ r s h'
    exact ⟨rfl, h''⟩

theorem comap {e : γ → α} {D' : Set γ} (h : PrefixFreeOn f D) (hD : ∀ c ∈ D', e c ∈ D)
    (he : Set.InjOn e D') : PrefixFreeOn (fun c => f (e c)) D' := by
  intro a ha b hb r s hrs
  obtain ⟨h1, h2⟩ := h _ (hD a ha) _ (hD b hb) r s hrs
  exact ⟨he ha hb h1, h2⟩

end PrefixFreeOn

/-! ## Readers -/

/-- The next `n` items. -/
def takeN (n : ℕ) : Reader β (List β) := fun bs =>
  if n ≤ bs.length then some (bs.take n, bs.drop n) else none

/-- `n` values, one after the other. -/
def readMany (p : Reader β α) : ℕ → Reader β (List α)
  | 0 => fun bs => some ([], bs)
  | n + 1 => fun bs => do
    let (a, bs) ← p bs
    let (as, bs) ← readMany p n bs
    some (a :: as, bs)

theorem takeN_canonical (n : ℕ) : Canonical (takeN n : Reader β (List β)) id {l | l.length = n} := by
  intro bs a rest
  unfold takeN
  split
  · rename_i h
    simp only [Option.some.injEq, Prod.mk.injEq, Set.mem_ofPred_eq, id_eq]
    constructor
    · rintro ⟨rfl, rfl⟩
      exact ⟨by simp [h], (take_append_drop n bs).symm⟩
    · rintro ⟨hn, rfl⟩
      exact ⟨take_left' hn, drop_left' hn⟩
  · rename_i h
    simp only [reduceCtorEq, Set.mem_ofPred_eq, id_eq, false_iff, not_and]
    rintro hn rfl
    simp [hn] at h

theorem Canonical.readMany (h : Canonical p f D) :
    ∀ n, Canonical (readMany p n) (fun l : List α => l.flatMap f) {l | l.length = n ∧ ∀ a ∈ l, a ∈ D} := by
  intro n
  induction n with
  | zero =>
    intro bs l rest
    simp only [Lib.readMany, Option.some.injEq, Prod.mk.injEq, length_eq_zero_iff, Set.mem_ofPred_eq]
    constructor
    · rintro ⟨rfl, rfl⟩; simp
    · rintro ⟨⟨rfl, -⟩, rfl⟩; simp
  | succ n ih =>
    intro bs l rest
    simp only [Lib.readMany, Option.bind_eq_bind, Option.bind_eq_some_iff, Prod.exists, Option.some.injEq,
      Prod.mk.injEq, Set.mem_ofPred_eq]
    constructor
    · rintro ⟨a, bs', h1, as, bs'', h2, rfl, rfl⟩
      obtain ⟨ha, rfl⟩ := (h _ _ _).1 h1
      obtain ⟨⟨has, hasD⟩, rfl⟩ := (ih _ _ _).1 h2
      refine ⟨⟨by simp [has], ?_⟩, by simp⟩
      simpa using ⟨ha, hasD⟩
    · rintro ⟨⟨hl, hD⟩, rfl⟩
      obtain ⟨a, l, rfl⟩ := exists_cons_of_length_eq_add_one hl
      refine ⟨a, l.flatMap f ++ rest, ?_, l, rest, ?_, rfl, rfl⟩
      · exact (h _ _ _).2 ⟨hD a (by simp), by simp⟩
      · exact (ih _ _ _).2 ⟨⟨by simpa using hl, fun x hx => hD x (by simp [hx])⟩, rfl⟩

/-! ## Little-endian numbers -/

/-- The low `n` bytes of `v`, least significant first. -/
def leBytes : ℕ → ℕ → List UInt8
  | 0, _ => []
  | n + 1, v => UInt8.ofNat v :: leBytes n (v / 256)

@[simp] theorem leBytes_length : ∀ n v, (leBytes n v).length = n := by
  intro n
  induction n with
  | zero => intro v; rfl
  | succ n ih => intro v; simp [leBytes, ih]

theorem leValue_leBytes : ∀ n v, leValue (leBytes n v) = v % 256 ^ n := by
  intro n
  induction n with
  | zero => intro v; simp [leBytes, leValue, Nat.mod_one]
  | succ n ih =>
    intro v
    rw [leBytes, leValue, ih, pow_succ', Nat.mod_mul, UInt8.toNat_ofNat']

theorem leBytes_leValue : ∀ bs : List UInt8, leBytes bs.length (leValue bs) = bs := by
  intro bs
  induction bs with
  | nil => rfl
  | cons b bs ih =>
    have hb : b.toNat < 256 := b.toNat_lt
    have hq : (b.toNat + 256 * leValue bs) / 256 = leValue bs := by omega
    have hm : UInt8.ofNat (b.toNat + 256 * leValue bs) = b := by
      apply UInt8.toNat_inj.1
      rw [UInt8.toNat_ofNat']
      omega
    rw [length_cons, leValue, leBytes, hq, hm, ih]

theorem leBytes_injOn (n : ℕ) : Set.InjOn (leBytes n) {v | v < 256 ^ n} := by
  intro a ha b hb h
  have := congrArg leValue h
  rwa [leValue_leBytes, leValue_leBytes, Nat.mod_eq_of_lt ha, Nat.mod_eq_of_lt hb] at this

theorem leBytes_prefixFreeOn (n : ℕ) : PrefixFreeOn (leBytes n) {v | v < 256 ^ n} :=
  PrefixFreeOn.of_length n (fun a _ => leBytes_length n a) (leBytes_injOn n)

end

/-!
## Decoders over a byte source

A decoder takes what it reads off the front of a source, or fails with an error. `Decodes m f D`:
the decoder `m` accepts exactly the sources that start with `f a` for some `a` in `D`, and returns
that `a` with the rest. A record is decoded field by field: `Decodes.field` reads a field that the
finished record still shows (`key`), so the code of a record is the codes of its fields in the
order in which they are read.
-/

variable {ε α β γ : Type}

/-- Success of a sequence of results splits at the first one. -/
theorem except_bind_ok {x : Except ε α} {k : α → Except ε γ} {c : γ} :
    (x >>= k) = .ok c ↔ ∃ a, x = .ok a ∧ k a = .ok c := by
  cases x <;> simp [bind, Except.bind]

/-- A decoder: the value read and what is left of the source, or an error. -/
abbrev Decoder (ε β α : Type) := StateT (List β) (Except ε) α

/-- `m` accepts exactly the sources that start with the code of a value in `D`. -/
def Decodes (m : Decoder ε β α) (f : α → List β) (D : Set α) : Prop :=
  ∀ bs a rest, m bs = .ok (a, rest) ↔ a ∈ D ∧ bs = f a ++ rest

/-- A value computed without reading. -/
def Decoder.lift (r : Except ε α) : Decoder ε β α := StateT.lift r

theorem Decoder.lift_ok {r : Except ε α} {b : α} {s t : List β} :
    (Decoder.lift r : Decoder ε β α) s = .ok (b, t) ↔ r = .ok b ∧ s = t := stateT_lift_ok

/-- `n` values, one after the other. -/
def decodeMany (m : Decoder ε β α) : ℕ → Decoder ε β (List α)
  | 0 => pure []
  | n + 1 => do
    let a ← m
    let as ← decodeMany m n
    return a :: as

namespace Decodes

variable {m : Decoder ε β α} {f : α → List β} {D : Set α} {k : α → Decoder ε β γ} {C : Set γ}

/-- Forgetting the errors leaves a canonical reader. -/
theorem canonical (h : Decodes m f D) : Canonical (fun bs => (m bs).toOption) f D := by
  intro bs a rest
  rw [← h bs a rest]
  change Except.toOption (m bs) = _ ↔ _
  generalize m bs = r
  cases r <;> simp [Except.toOption]

theorem congr {f' : α → List β} {D' : Set α} (h : Decodes m f D) (hD : ∀ a, a ∈ D ↔ a ∈ D')
    (hf : ∀ a ∈ D, f a = f' a) : Decodes m f' D' := by
  intro bs a rest
  rw [h bs a rest, ← hD a]
  exact and_congr_right fun ha => by rw [hf a ha]

theorem pure (a : α) : Decodes (Pure.pure a : Decoder ε β α) (fun _ => []) {a} := by
  intro bs b rest
  rw [stateT_pure_ok, Set.mem_singleton_iff, List.nil_append]
  exact and_congr_left' eq_comm

theorem lift (r : Except ε α) : Decodes (Decoder.lift r : Decoder ε β α) (fun _ => []) {a | r = .ok a} := by
  intro bs a rest
  rw [List.nil_append]
  exact Decoder.lift_ok

/-- What the second decoder reads shows what the first one read. -/
theorem bind {g : α → γ → List β} {C : α → Set γ} (hm : Decodes m f D) (hk : ∀ a ∈ D, Decodes (k a) (g a) (C a)) (key : γ → α)
    (hkey : ∀ a ∈ D, ∀ c ∈ C a, key c = a) :
    Decodes (m >>= k) (fun c => f (key c) ++ g (key c) c) {c | key c ∈ D ∧ c ∈ C (key c)} := by
  intro bs c rest
  rw [stateT_bind_ok]
  constructor
  · rintro ⟨a, bs', h1, h2⟩
    obtain ⟨ha, rfl⟩ := (hm _ _ _).1 h1
    obtain ⟨hc, rfl⟩ := (hk a ha _ _ _).1 h2
    obtain rfl := hkey a ha c hc
    exact ⟨⟨ha, hc⟩, by rw [List.append_assoc]⟩
  · rintro ⟨⟨ha, hc⟩, rfl⟩
    refine ⟨key c, g (key c) c ++ rest, (hm _ _ _).2 ⟨ha, by rw [List.append_assoc]⟩, ?_⟩
    exact (hk _ ha _ _ _).2 ⟨hc, rfl⟩

/-- A check made on what was read. -/
theorem checked (hm : Decodes m f D) (r : α → Except ε Unit) :
    Decodes (do let a ← m; Decoder.lift (r a); Pure.pure a) f {a | a ∈ D ∧ r a = .ok ()} := by
  have hk : ∀ a ∈ D, Decodes (do Decoder.lift (r a); Pure.pure a : Decoder ε β α) (fun _ => [])
      {c | c = a ∧ r a = .ok ()} := by
    intro a _
    have h := (lift (β := β) (r a)).bind (fun _ _ => pure (ε := ε) (β := β) a) (fun _ => ()) fun _ _ _ _ => rfl
    refine h.congr (fun c => ?_) fun _ _ => rfl
    exact and_comm
  refine (hm.bind hk id fun a _ c hc => hc.1).congr (fun a => ?_) fun a _ => List.append_nil _
  simp

/-- A field of the records in `C`, read before the fields that `k` reads. -/
theorem field {g : γ → List β} (hm : Decodes m f D) (key : γ → α) (hC : ∀ c ∈ C, key c ∈ D)
    (hk : ∀ a ∈ D, Decodes (k a) g {c | c ∈ C ∧ key c = a}) : Decodes (m >>= k) (fun c => f (key c) ++ g c) C := by
  refine (hm.bind hk key fun a _ c hc => hc.2).congr (fun c => ?_) fun _ _ => rfl
  exact ⟨fun h => h.2.1, fun h => ⟨hC c h, h, rfl⟩⟩

/-- The record is complete: it is the only one with the fields read. -/
theorem record (c : γ) (hC : ∀ x, x ∈ C ↔ x = c) : Decodes (Pure.pure c : Decoder ε β γ) (fun _ => []) C :=
  (pure c).congr (fun x => by rw [hC, Set.mem_singleton_iff]) fun _ _ => rfl

/-- Values one after the other, as many as asked for. -/
theorem many (hm : Decodes m f D) :
    ∀ n, Decodes (decodeMany m n) (fun l => l.flatMap f) {l | l.length = n ∧ ∀ a ∈ l, a ∈ D} := by
  intro n
  induction n with
  | zero =>
    refine (pure ([] : List α)).congr (fun l => ?_) fun l hl => ?_
    · rw [Set.mem_singleton_iff, Set.mem_ofPred_eq, List.length_eq_zero_iff]
      exact ⟨fun h => ⟨h, by simp [h]⟩, fun h => h.1⟩
    · rw [Set.mem_singleton_iff.1 hl]; rfl
  | succ n ih =>
    intro bs l rest
    simp only [decodeMany, stateT_bind_ok, stateT_pure_ok]
    constructor
    · rintro ⟨a, bs', h1, as, bs'', h2, rfl, rfl⟩
      obtain ⟨ha, rfl⟩ := (hm _ _ _).1 h1
      obtain ⟨⟨has, hasD⟩, rfl⟩ := (ih _ _ _).1 h2
      exact ⟨⟨by simp [has], by simpa using ⟨ha, hasD⟩⟩, by simp⟩
    · rintro ⟨⟨hl, hD⟩, rfl⟩
      obtain ⟨a, l, rfl⟩ := List.exists_cons_of_length_eq_add_one hl
      refine ⟨a, l.flatMap f ++ rest, (hm _ _ _).2 ⟨hD a (by simp), by simp⟩, l, rest, ?_, rfl, rfl⟩
      exact (ih _ _ _).2 ⟨⟨by simpa using hl, fun x hx => hD x (by simp [hx])⟩, rfl⟩

end Decodes

end Akita.Lib
