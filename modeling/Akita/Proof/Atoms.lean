import Akita.Spec.Transcript

/-!
# Every atom is read in its canonical encoding only

Field atoms, extension atoms and nonces: the reader of each accepts exactly the strings
that start with the encoding of a value, and returns that value. The absorbed forms are
whole words and keep what the wire form distinguishes.
-/

namespace Akita.Transcript

open Lib List

variable {F E T : Type} {v : ℕ}

/-! ## Field elements -/

section

variable [CanonicalEncoding F] [LawfulEncoding F]

theorem numBytes_pos [Nontrivial F] : 0 < CanonicalEncoding.numBytes F := by
  by_contra h
  have hlen : ∀ x : F, CanonicalEncoding.toBytesLe x = [] := by
    intro x
    have := LawfulEncoding.length_toBytesLe x
    exact length_eq_zero_iff.1 (by omega)
  have hdec : ∀ x : F, CanonicalEncoding.fromBytesLeChecked [] = some x := by
    intro x
    exact (LawfulEncoding.fromBytesLeChecked [] x (by simp; omega)).2 (hlen x).symm
  obtain ⟨x, y, hxy⟩ := exists_pair_ne F
  exact hxy (Option.some.inj ((hdec x).symm.trans (hdec y)))

theorem fieldAtom_canonical : Canonical (ProofAtom.fromNarg (T := FieldAtom F)) ProofAtom.encode Set.univ := by
  intro bs a rest
  simp only [ProofAtom.fromNarg, ProofAtom.encode, option_some, Prod.exists, Prod.mk.injEq, Set.mem_univ, true_and]
  constructor
  · rintro ⟨c, bs', h1, x, h2, rfl, rfl⟩
    obtain ⟨hc, rfl⟩ := (takeN_canonical _ _ _ _).1 h1
    rw [(LawfulEncoding.fromBytesLeChecked c x hc).1 h2]
    rfl
  · rintro rfl
    have hlen := LawfulEncoding.length_toBytesLe a.intoInner
    exact ⟨_, rest, (takeN_canonical _ _ _ _).2 ⟨hlen, rfl⟩, a.intoInner,
      (LawfulEncoding.fromBytesLeChecked _ _ hlen).2 rfl, rfl, rfl⟩

instance [Nontrivial F] : LawfulAtom (FieldAtom F) where
  canonical := fieldAtom_canonical
  encode_ne_nil a h := by
    have hlen := LawfulEncoding.length_toBytesLe a.intoInner
    have hpos := numBytes_pos (F := F)
    have h0 : CanonicalEncoding.toBytesLe a.intoInner = [] := h
    rw [h0] at hlen
    simp at hlen
    omega

variable [ExtField F E]

omit [LawfulEncoding F] in
theorem extensionAtom_encode (a : ExtensionAtom F E) : ProofAtom.encode a =
    ((ExtField.toBaseVec (F := F) a.intoInner).map FieldAtom.mk).flatMap ProofAtom.encode := by
  rw [flatMap_map]; rfl

variable [LawfulExtField F E]

theorem extensionAtom_canonical :
    Canonical (ProofAtom.fromNarg (T := ExtensionAtom F E)) ProofAtom.encode Set.univ := by
  intro bs a rest
  have hread := fieldAtom_canonical.readMany (ExtField.degree F E) (D := Set.univ (α := FieldAtom F))
  rw [extensionAtom_encode]
  simp only [ProofAtom.fromNarg, option_some, Prod.exists, Prod.mk.injEq, Set.mem_univ, true_and]
  constructor
  · rintro ⟨cs, bs', h1, rfl, rfl⟩
    obtain ⟨⟨hlen, -⟩, rfl⟩ := (hread _ _ _).1 h1
    have hmap : (cs.map FieldAtom.intoInner).map FieldAtom.mk = cs := by simp [Function.comp_def]
    rw [LawfulExtField.toBaseVec_fromBaseSlice _ (by simpa using hlen), hmap]
  · rintro rfl
    refine ⟨_, rest, (hread _ _ _).2 ⟨⟨?_, fun _ _ => Set.mem_univ _⟩, rfl⟩, ?_, rfl⟩
    · simp [LawfulExtField.length_toBaseVec]
    · have hmap : ((ExtField.toBaseVec (F := F) a.intoInner).map FieldAtom.mk).map FieldAtom.intoInner =
          ExtField.toBaseVec (F := F) a.intoInner := by simp [Function.comp_def]
      rw [hmap, LawfulExtField.fromBaseSlice_toBaseVec]

omit [CanonicalEncoding F] [LawfulEncoding F] in
theorem degree_pos [Nontrivial E] : 0 < ExtField.degree F E := by
  by_contra h
  have hnil : ∀ x : E, ExtField.toBaseVec (F := F) x = [] := by
    intro x
    have := LawfulExtField.length_toBaseVec (F := F) x
    exact length_eq_zero_iff.1 (by omega)
  obtain ⟨x, y, hxy⟩ := exists_pair_ne E
  apply hxy
  rw [← LawfulExtField.fromBaseSlice_toBaseVec (F := F) x, hnil x, ← hnil y, LawfulExtField.fromBaseSlice_toBaseVec]

instance [Nontrivial F] [Nontrivial E] : LawfulAtom (ExtensionAtom F E) where
  canonical := extensionAtom_canonical
  encode_ne_nil a h := by
    rw [extensionAtom_encode, flatMap_eq_nil_iff] at h
    have hlen := LawfulExtField.length_toBaseVec (F := F) a.intoInner
    have hpos := degree_pos (F := F) (E := E)
    obtain ⟨c, cs, hc⟩ := exists_cons_of_length_pos (hlen ▸ hpos)
    rw [hc] at h
    exact LawfulAtom.encode_ne_nil _ (h (FieldAtom.mk c) (by simp))

end

theorem encodeAtoms_eq_nil [ProofAtom T] [LawfulAtom T] {atoms : List T} : encodeAtoms atoms = [] ↔ atoms = [] := by
  cases atoms with
  | nil => simp [encodeAtoms]
  | cons a as => simp [encodeAtoms, LawfulAtom.encode_ne_nil a]

theorem encodeAtoms_canonical [ProofAtom T] [LawfulAtom T] (n : ℕ) :
    Canonical (readMany (ProofAtom.fromNarg (T := T)) n) encodeAtoms {l | l.length = n} := by
  have h := (LawfulAtom.canonical (T := T)).readMany n
  simp only [Set.mem_univ, implies_true, and_true] at h
  exact h

/-! ## Nonces -/

theorem toNat_or_high (h : v < 128) : UInt8.ofNat v ||| 0x80 = UInt8.ofNat (v + 128) := by
  apply UInt8.toNat_inj.1
  have h7 := Nat.two_pow_add_eq_or_of_lt (show v < 2 ^ 7 from h) 1
  rw [UInt8.toNat_or, UInt8.toNat_ofNat', UInt8.toNat_ofNat', Nat.mod_eq_of_lt (by omega),
    Nat.mod_eq_of_lt (by omega), Nat.or_comm]
  exact h7.symm.trans (by omega)

theorem nonceWireLoop_succ (slots v : ℕ) : nonceWireLoop (slots + 1) v =
    if v < 128 then [UInt8.ofNat v] else UInt8.ofNat (v % 128 + 128) :: nonceWireLoop slots (v / 128) := by
  have h7 : v &&& 127 = v % 128 := Nat.and_two_pow_sub_one_eq_mod v 7
  have hs : v >>> 7 = v / 128 := Nat.shiftRight_eq_div_pow v 7
  simp only [nonceWireLoop, h7, hs, toNat_or_high (Nat.mod_lt v (show 0 < 128 by norm_num))]
  rcases lt_or_ge v 128 with h | h
  · rw [if_neg (by omega), if_pos h, Nat.mod_eq_of_lt h]
  · rw [if_pos (by omega), if_neg (by omega)]

/-- The first byte of the wire form tells whether another follows. -/
theorem nonceWireLoop_cons {slots : ℕ} {b : UInt8} {bs rest : List UInt8} : b :: bs = nonceWireLoop (slots + 1) v ++ rest ↔
      (v < 128 ∧ b.toNat = v ∧ bs = rest) ∨
      (128 ≤ v ∧ b.toNat = v % 128 + 128 ∧ bs = nonceWireLoop slots (v / 128) ++ rest) := by
  rw [nonceWireLoop_succ]
  split
  · rename_i h
    simp only [cons_append, nil_append, List.cons.injEq, ← UInt8.toNat_inj,
      UInt8.toNat_ofNat_of_lt' (show v < UInt8.size from by simp [UInt8.size]; omega)]
    constructor
    · rintro ⟨h1, h2⟩; exact Or.inl ⟨h, h1, h2⟩
    · rintro (⟨-, h1, h2⟩ | ⟨h1, -⟩)
      · exact ⟨h1, h2⟩
      · omega
  · rename_i h
    simp only [cons_append, List.cons.injEq, ← UInt8.toNat_inj,
      UInt8.toNat_ofNat_of_lt' (show v % 128 + 128 < UInt8.size from by simp [UInt8.size]; omega)]
    constructor
    · rintro ⟨h1, h2⟩; exact Or.inr ⟨by omega, h1, h2⟩
    · rintro (⟨h1, -⟩ | ⟨-, h1, h2⟩)
      · omega
      · exact ⟨h1, h2⟩

theorem high_bit_zero_iff (b : UInt8) : b &&& 0x80 = 0 ↔ b.toNat < 128 := by
  have hb := b.toNat_lt
  have h7 := Nat.and_two_pow b.toNat 7
  rw [Nat.testBit_eq_decide_div_mod_eq] at h7
  rw [← UInt8.toNat_inj, UInt8.toNat_and]
  change b.toNat &&& 2 ^ 7 = 0 ↔ _
  rw [h7]
  by_cases h : b.toNat < 128
  · rw [decide_eq_false (by omega)]
    simp [h]
  · rw [decide_eq_true (by omega)]
    simp [h]

theorem low_bits_eq (b : UInt8) : b.toNat &&& 0x7f = b.toNat % 128 := Nat.and_two_pow_sub_one_eq_mod b.toNat 7

theorem or_shifted {value payload index : ℕ} (h : value < 128 ^ index) :
    value ||| (payload <<< (index * 7)) = value + payload * 128 ^ index := by
  have h2 : (128 : ℕ) ^ index = 2 ^ (index * 7) := by
    rw [show (128 : ℕ) = 2 ^ 7 by norm_num, ← pow_mul, mul_comm]
  rw [h2] at h ⊢
  have := Nat.two_pow_add_eq_or_of_lt h payload
  rw [Nat.shiftLeft_eq, Nat.or_comm, mul_comm payload, ← this, add_comm]

theorem nonce_bound {index p : ℕ} (hi : index ≤ 4) (hp : p < 128) (h0 : v ≠ 0) (hv : v * 128 ^ (index + 1) < 2 ^ 32) :
    (p + 128 * v) * 128 ^ index < 2 ^ 32 := by
  rcases lt_or_ge index 4 with h4 | h4
  · have hc : 128 ^ (index + 1) * 2 ^ (32 - 7 * (index + 1)) = 2 ^ 32 := by
      rw [show (128 : ℕ) = 2 ^ 7 by norm_num, ← pow_mul, ← pow_add]
      congr 1
      omega
    have hlt : v < 2 ^ (32 - 7 * (index + 1)) := by
      rw [← hc, mul_comm] at hv
      exact Nat.lt_of_mul_lt_mul_left hv
    calc (p + 128 * v) * 128 ^ index < (128 * (v + 1)) * 128 ^ index :=
          Nat.mul_lt_mul_of_pos_right (by omega) (by positivity)
      _ = 128 ^ (index + 1) * (v + 1) := by ring
      _ ≤ 128 ^ (index + 1) * 2 ^ (32 - 7 * (index + 1)) := Nat.mul_le_mul_left _ hlt
      _ = 2 ^ 32 := hc
  · obtain rfl : index = 4 := by omega
    have h1 : 1 * 128 ^ (4 + 1) ≤ v * 128 ^ (4 + 1) := Nat.mul_le_mul_right _ (Nat.one_le_iff_ne_zero.2 h0)
    exact absurd (h1.trans_lt hv) (by norm_num)

/-- The reader accepts the canonical groups of `v`, which is then added at its place. -/
theorem nonceFromNargLoop_iff : ∀ (slots index value : ℕ) (bs rest : List UInt8) (w : UInt32),
    slots + index = 5 → value < 128 ^ index →
    (nonceFromNargLoop slots index value bs = some (w, rest) ↔
      ∃ v, v * 128 ^ index < 2 ^ 32 ∧ (index ≠ 0 → v ≠ 0) ∧ w = UInt32.ofNat (value + v * 128 ^ index) ∧
        bs = nonceWireLoop slots v ++ rest) := by
  intro slots
  induction slots with
  | zero =>
    intro index value bs rest w hi _
    obtain rfl : index = 5 := by omega
    simp only [nonceFromNargLoop, reduceCtorEq, false_iff, not_exists, not_and]
    intro v hv h0
    exact absurd (h0 (by norm_num)) (by omega)
  | succ slots ih =>
    intro index value bs rest w hi hval
    cases bs with
    | nil =>
      simp only [nonceFromNargLoop, Option.bind_eq_bind, Option.bind_none, reduceCtorEq, false_iff,
        not_exists, not_and]
      intro v _ _ _ h
      rw [nonceWireLoop_succ] at h
      split at h <;> simp at h
    | cons b bs =>
      have hb := b.toNat_lt
      simp only [nonceFromNargLoop, Option.bind_eq_bind, Option.bind_some, low_bits_eq, high_bit_zero_iff,
        or_shifted hval, nonceWireLoop_cons]
      have h4 : index ≤ 4 := by omega
      rcases lt_or_ge b.toNat 128 with hlt | hge
      · -- the last group: nonzero unless it is the first, below 16 in the fifth place
        rw [Nat.mod_eq_of_lt hlt, if_pos hlt]
        constructor
        · intro h
          split at h
          · simp at h
          rename_i h15
          split at h
          · simp at h
          rename_i h0
          obtain ⟨rfl, rfl⟩ : UInt32.ofNat (value + b.toNat * 128 ^ index) = w ∧ bs = rest := by
            simpa using h
          refine ⟨b.toNat, ?_, fun hi0 hb0 => h0 ⟨hi0, hb0⟩, rfl, Or.inl ⟨hlt, rfl, rfl⟩⟩
          interval_cases index <;> omega
        · rintro ⟨v, hv, h0, rfl, ⟨-, rfl, rfl⟩ | ⟨h1, h2, -⟩⟩
          · rw [if_neg (by rintro ⟨rfl, h⟩; omega), if_neg (by rintro ⟨h, h'⟩; exact h0 h h')]
          · omega
      · have hp : value + b.toNat % 128 * 128 ^ index < 128 ^ (index + 1) := by
          have : b.toNat % 128 ≤ 127 := by omega
          calc value + b.toNat % 128 * 128 ^ index < 128 ^ index + 127 * 128 ^ index :=
                Nat.add_lt_add_of_lt_of_le hval (Nat.mul_le_mul_right _ this)
            _ = 128 ^ (index + 1) := by ring
        have ih' := ih (index + 1) _ bs rest w (by omega) hp
        rw [if_neg (by omega : ¬ b.toNat < 128)]
        constructor
        · intro h
          split at h
          · simp at h
          obtain ⟨v, hv, h0, rfl, rfl⟩ := ih'.1 h
          refine ⟨b.toNat % 128 + 128 * v, ?_, ?_, ?_, Or.inr ⟨?_, ?_, ?_⟩⟩
          · exact nonce_bound h4 (by omega) (h0 (by omega)) hv
          · have := h0 (by omega)
            omega
          · have hsum : value + b.toNat % 128 * 128 ^ index + v * 128 ^ (index + 1) =
                value + (b.toNat % 128 + 128 * v) * 128 ^ index := by ring
            rw [hsum]
          · have := h0 (by omega)
            omega
          · omega
          · rw [show (b.toNat % 128 + 128 * v) / 128 = v by omega]
        · rintro ⟨v, hv, h0, rfl, ⟨h1, h2, -⟩ | ⟨h1, h2, rfl⟩⟩
          · omega
          · rw [if_neg (by rintro ⟨rfl, h⟩; omega), ih']
            refine ⟨v / 128, ?_, by omega, ?_, rfl⟩
            · rw [pow_succ]
              calc v / 128 * (128 ^ index * 128) = v / 128 * 128 * 128 ^ index := by ring
                _ ≤ v * 128 ^ index := Nat.mul_le_mul_right _ (Nat.div_mul_le_self v 128)
                _ < 2 ^ 32 := hv
            · have hm : b.toNat % 128 = v % 128 := by omega
              rw [hm, pow_succ]
              congr 1
              calc value + v * 128 ^ index = value + (v % 128 + 128 * (v / 128)) * 128 ^ index := by
                    rw [Nat.mod_add_div]
                _ = value + v % 128 * 128 ^ index + v / 128 * (128 ^ index * 128) := by ring

theorem nonceFromNarg_canonical : Canonical nonceFromNarg nonceWire Set.univ := by
  intro bs w rest
  have h := nonceFromNargLoop_iff 5 0 0 bs rest w rfl (by norm_num)
  simp only [pow_zero, mul_one, zero_add, ne_eq, not_true_eq_false, false_implies, true_and] at h
  simp only [Set.mem_univ, true_and]
  refine h.trans ⟨?_, ?_⟩
  · rintro ⟨v, hv, rfl, rfl⟩
    rw [nonceWire, UInt32.toNat_ofNat', Nat.mod_eq_of_lt hv]
    rfl
  · rintro rfl
    exact ⟨w.toNat, w.toNat_lt, by simp, rfl⟩

theorem size_div_128 (h : 128 ≤ v) : v.size = (v / 128).size + 7 := by
  have hpow : ∀ n, v / 128 < 2 ^ n ↔ v < 2 ^ (n + 7) := by
    intro n
    rw [Nat.div_lt_iff_lt_mul (by norm_num), pow_add]
    norm_num
  apply le_antisymm
  · exact Nat.size_le.2 ((hpow _).1 (Nat.lt_size_self _))
  · have hlarge : 7 < v.size := Nat.lt_size.2 h
    obtain ⟨n, hn⟩ := Nat.exists_eq_add_of_le hlarge.le
    have hsmall : (v / 128).size ≤ n := Nat.size_le.2 ((hpow n).2 (by rw [add_comm, ← hn]; exact Nat.lt_size_self v))
    omega

theorem nonceWireLoop_length : ∀ {slots v : ℕ}, 0 < slots → v < 128 ^ slots →
    (nonceWireLoop slots v).length = (max v.size 1 + 6) / 7 := by
  intro slots
  induction slots with
  | zero => intro v h; simp at h
  | succ slots ih =>
    intro v _ hv
    rw [nonceWireLoop_succ]
    by_cases hlt : v < 128
    · have hsize : v.size ≤ 7 := Nat.size_le.2 hlt
      rw [if_pos hlt, length_singleton]
      omega
    · have hrest : v / 128 < 128 ^ slots := by
        rw [Nat.div_lt_iff_lt_mul (by norm_num), ← pow_succ]
        exact hv
      have hslots : 0 < slots := by
        by_contra hzero
        rw [Nat.eq_zero_of_not_pos hzero] at hv
        omega
      -- what is left is not zero, so it has a bit
      have hpos : 0 < (v / 128).size := Nat.size_pos.2 (Nat.div_pos (by omega) (by norm_num))
      rw [if_neg hlt, length_cons, ih hslots hrest, size_div_128 (v := v) (by omega)]
      omega

theorem nonceEncodedLen_eq (nonce : UInt32) : nonceEncodedLen nonce = (max nonce.toNat.size 1 + 6) / 7 := by
  simp only [nonceEncodedLen]
  split <;> omega

theorem nonceWire_length (nonce : UInt32) : (nonceWire nonce).length = nonceEncodedLen nonce := by
  have hlt := nonce.toNat_lt
  rw [nonceWire, nonceEncodedLen_eq]
  exact nonceWireLoop_length (by decide) (hlt.trans (by decide))

theorem nonceWord_injective : Function.Injective nonceWord := by
  intro u v h
  have hvalue := congrArg leValue h
  rw [nonceWord, nonceWord, leValue_leBytes, leValue_leBytes] at hvalue
  have hu := u.toNat_lt
  have hv := v.toNat_lt
  rw [Nat.mod_eq_of_lt (by omega), Nat.mod_eq_of_lt (by omega)] at hvalue
  exact UInt32.toNat_inj.1 hvalue

/-- **The nonce codec is canonical LEB128**: it reads exactly what begins with the encoding of a nonce, takes that
encoding and no more, and an encoding has the announced length, within every budget of at least one bit. -/
theorem nonceAtom_codec : (∀ bytes, (nonceFromNarg bytes).isSome ↔ ∃ nonce, nonceWire nonce <+: bytes) ∧
      (∀ bytes nonce rest, nonceFromNarg bytes = some (nonce, rest) ↔ bytes = nonceWire nonce ++ rest) ∧
      (∀ bytes nonce nonce', nonceWire nonce <+: bytes → nonceWire nonce' <+: bytes → nonce = nonce') ∧
      Function.Injective nonceWord ∧ (∀ nonce, (nonceWire nonce).length = nonceEncodedLen nonce) ∧
      ∀ (nonce : UInt32) (bits : UInt8), 0 < bits → nonce.toNat < 2 ^ bits.toNat → nonceEncodedLen nonce ≤ nonceMaxBytes bits.toNat := by
  have hread : ∀ bytes nonce rest, nonceFromNarg bytes = some (nonce, rest) ↔ bytes = nonceWire nonce ++ rest := by
    intro bytes nonce rest
    simpa using nonceFromNarg_canonical bytes nonce rest
  refine ⟨fun bytes => ?_, hread, fun bytes nonce nonce' h h' => ?_, nonceWord_injective, nonceWire_length, ?_⟩
  · rw [Option.isSome_iff_exists]
    constructor
    · rintro ⟨⟨nonce, rest⟩, h⟩
      exact ⟨nonce, rest, ((hread bytes nonce rest).1 h).symm⟩
    · rintro ⟨nonce, rest, h⟩
      exact ⟨(nonce, rest), (hread bytes nonce rest).2 h.symm⟩
  · obtain ⟨rest, h⟩ := h
    obtain ⟨rest', h'⟩ := h'
    have hsome := (hread bytes nonce rest).2 h.symm
    rw [(hread bytes nonce' rest').2 h'.symm] at hsome
    exact (Prod.mk.inj (Option.some.inj hsome)).1.symm
  · intro nonce bits hbits hlt
    have hbits : 0 < bits.toNat := UInt8.lt_iff_toNat_lt.1 hbits
    have hsize : nonce.toNat.size ≤ bits.toNat := Nat.size_le.2 hlt
    rw [nonceEncodedLen_eq, nonceMaxBytes, if_neg hbits.ne']
    exact Nat.div_le_div_right (by omega)

theorem nonceAtom_codec_sample :
    nonceWire 0xffffffff <+: [0xff, 0xff, 0xff, 0xff, 0x0f, 7] ∧ nonceFromNarg [0xff, 0xff, 0xff, 0xff, 0x0f, 7] = some (0xffffffff, [7]) ∧
      nonceEncodedLen 16384 ≤ nonceMaxBytes 15 := by
  have hcodec := nonceAtom_codec
  refine ⟨⟨[7], by decide⟩, (hcodec.2.1 _ _ _).2 (by decide), hcodec.2.2.2.2.2 16384 15 (by decide) (by decide)⟩

theorem nonceMaxBytes_no_bits : (0 : UInt32).toNat < 2 ^ (0 : UInt8).toNat ∧ ¬ (nonceWire 0).length ≤ nonceMaxBytes (0 : UInt8).toNat := by
  decide

end Akita.Transcript
