import Akita.Spec.Transcript

/-!
# A transcript backend that is lawful

Plain states: the prover's argument string, the verifier's unread bytes and poison, and on
both sides the calls made on the sponge. Only the squeezed bytes are fixed arbitrarily.
The field is `ZMod 5`, one byte an element, as an extension of degree one of itself.
-/

namespace Akita.Transcript

open Lib

structure PlainProver where
  argument : List UInt8
  calls : List SpongeCall
  deriving DecidableEq

structure PlainVerifier where
  remaining : List UInt8
  calls : List SpongeCall
  poisoned : Bool
  deriving DecidableEq

/-- The plain states, with a sponge that squeezes zeros. -/
def plainBackend : TranscriptBackend where
  Prover := PlainProver
  Verifier := PlainVerifier
  argument := PlainProver.argument
  proverCalls := PlainProver.calls
  remaining := PlainVerifier.remaining
  verifierCalls := PlainVerifier.calls
  poisoned v := v.poisoned = true
  output _ n := List.replicate n 0
  session s := [.absorb s]
  proverNew s := ⟨[], [.absorb s]⟩
  verifierNew s proof := ⟨proof, [.absorb s], false⟩
  send p a w := ⟨p.argument ++ w, p.calls ++ [.absorb a]⟩
  receive v r f :=
    if v.poisoned then (none, v)
    else match r v.remaining with
      | some (a, rest) => (some a, ⟨rest, v.calls ++ [.absorb (f a)], false⟩)
      | none => (none, { v with poisoned := true })
  proverPublic p a := { p with calls := p.calls ++ [.absorb a] }
  verifierPublic v a := { v with calls := v.calls ++ [.absorb a] }
  proverSqueeze p n := (List.replicate n 0, { p with calls := p.calls ++ [.squeeze n] })
  verifierSqueeze v n := (List.replicate n 0, { v with calls := v.calls ++ [.squeeze n] })
  proverVector codec p count :=
    match codec.challengeBytes count with
    | none => (none, p)
    | some len => (codec.decode count (List.replicate len 0), { p with calls := p.calls ++ [.squeeze len] })
  verifierVector codec v count :=
    match codec.challengeBytes count with
    | none => (none, { v with poisoned := true })
    | some len =>
      match codec.decode count (List.replicate len 0) with
      | none => (none, { v with calls := v.calls ++ [.squeeze len], poisoned := true })
      | some es => (some es, { v with calls := v.calls ++ [.squeeze len] })
  check v b := (!v.poisoned && b, { v with poisoned := v.poisoned || !b })
  checkEof v := !v.poisoned && v.remaining.isEmpty
  u32FromNarg bs := (takeN 4 bs).map fun x => (UInt32.ofNat (leValue x.1), x.2)
  proverReserve _ _ := true
  verifierReserve _ _ := true

theorem u32FromNarg_canonical : Canonical plainBackend.u32FromNarg (fun v => leBytes 4 v.toNat) Set.univ := by
  intro bs v rest
  simp only [plainBackend, Option.map_eq_some_iff, Prod.exists, Prod.mk.injEq, Set.mem_univ, true_and]
  constructor
  · rintro ⟨w, rest', h, rfl, rfl⟩
    obtain ⟨hw, rfl⟩ := (takeN_canonical _ _ _ _).1 h
    have hlen : w.length = 4 := hw
    have hlt := leValue_lt w
    rw [hlen] at hlt
    rw [UInt32.toNat_ofNat', Nat.mod_eq_of_lt (by omega), ← hlen, leBytes_leValue]
    rfl
  · rintro rfl
    refine ⟨leBytes 4 v.toNat, rest, (takeN_canonical _ _ _ _).2 ⟨leBytes_length _ _, rfl⟩, ?_, rfl⟩
    rw [leValue_leBytes, Nat.mod_eq_of_lt (by have := v.toNat_lt; omega), UInt32.ofNat_toNat]

theorem plainBackend_lawful : plainBackend.Lawful where
  proverNew s := ⟨rfl, rfl⟩
  verifierNew s proof := ⟨rfl, rfl, by simp [plainBackend]⟩
  send p a w := ⟨rfl, rfl⟩
  proverPublic p a := ⟨rfl, rfl⟩
  proverSqueeze p n := ⟨rfl, rfl, rfl⟩
  proverVector codec p n := by
    simp only [plainBackend, TranscriptBackend.drawn]
    cases codec.challengeBytes n <;> simp
  receive_some v r f a rest hv hr := by
    have hv' : v.poisoned = false := by simpa [plainBackend] using hv
    have hr' : r v.remaining = some (a, rest) := hr
    simp [plainBackend, hv', hr']
  receive_none v r f hr := by
    have hr' : r v.remaining = none := hr
    cases hv : v.poisoned <;> simp [plainBackend, hv, hr']
  receive_poisoned v r f hv := by
    have hv' : v.poisoned = true := hv
    simp [plainBackend, hv']
  verifierPublic v a := ⟨Iff.rfl, rfl, rfl⟩
  verifierSqueeze v n := ⟨rfl, Iff.rfl, rfl, rfl⟩
  verifierVector codec v n hv := by
    have hv' : v.poisoned = false := by simpa [plainBackend] using hv
    simp only [plainBackend, TranscriptBackend.drawn]
    cases codec.challengeBytes n with
    | none => simp
    | some len => cases h : codec.decode n (List.replicate len 0) <;> simp [h, hv']
  verifierVector_poisoned codec v n hv := by
    have hv' : v.poisoned = true := hv
    simp only [plainBackend]
    cases codec.challengeBytes n with
    | none => simp
    | some len => cases h : codec.decode n (List.replicate len 0) <;> simp [h, hv']
  check_ok v b := by simp [plainBackend]
  check_poisoned v b := by simp [plainBackend]
  check_view v b := ⟨rfl, rfl⟩
  checkEof v := by simp [plainBackend]
  u32FromNarg := u32FromNarg_canonical

theorem plainBackend_reserves (v : plainBackend.Verifier) (n : ℕ) : plainBackend.verifierReserve v n = true := rfl

/-! ## The field of five elements -/

def emptyCodec : ChallengeCodec (ZMod 5) := ⟨fun _ => none, fun _ _ => none⟩

instance : CanonicalEncoding (ZMod 5) where
  numBytes := 1
  toBytesLe x := [UInt8.ofNat x.val]
  fromBytesLeChecked
    | [b] => if b.toNat < 5 then some (b.toNat : ZMod 5) else none
    | _ => none

instance : LawfulEncoding (ZMod 5) where
  length_toBytesLe _ := rfl
  fromBytesLeChecked bs x hbs := by
    obtain ⟨b, rfl⟩ := List.length_eq_one_iff.1 hbs
    have hx : x.val < 5 := x.val_lt
    simp only [CanonicalEncoding.fromBytesLeChecked, CanonicalEncoding.toBytesLe, List.cons.injEq, and_true]
    constructor
    · intro h
      split at h
      · rename_i hb
        obtain rfl := Option.some.inj h
        rw [ZMod.val_natCast_of_lt hb, UInt8.ofNat_toNat]
      · simp at h
    · rintro rfl
      rw [UInt8.toNat_ofNat_of_lt' (by simp [UInt8.size]; omega), if_pos hx, ZMod.natCast_zmod_val]

instance : ExtField (ZMod 5) (ZMod 5) where
  degree := 1
  toBaseVec x := [x]
  fromBaseSlice l := l.headD 0

instance : LawfulExtField (ZMod 5) (ZMod 5) where
  length_toBaseVec _ := rfl
  fromBaseSlice_toBaseVec _ := rfl
  toBaseVec_fromBaseSlice l hl := by
    obtain ⟨b, rfl⟩ := List.length_eq_one_iff.1 hl
    rfl

end Akita.Transcript
