import Akita.Proof.ArtifactText
import Akita.Proof.ScheduleIdentity
import Akita.Spec.ScheduleCatalog

/-!
# The schedule catalog

**Main result** (`catalog_canonical`): what the decoder accepts is what the accepted catalog encodes, and the
lookups of an accepted catalog are exact.
-/

/-!
## Lookups in a catalog

A catalog of the validating constructor (`BuiltCatalog`) is sorted strictly by row digest and by lookup
key, and an order key stands for one lookup key (`canonicalOrderKey_injective`). Hence both searches are
exact (`resolveSelection_eq`, `resolveKey_eq`).
-/

namespace Akita.Schedule

open Lib List ValidatedScheduleCatalog

/-! ### Order keys -/

theorem Digest.order_injective : Function.Injective Digest.order := by
  intro a b h
  exact Vector.toList_inj.1 (map_injective_iff.2 (fun x y hxy => UInt8.toNat_inj.1 hxy) h)

/-- An L-infinity key of the A role, as every constructor of the matrix pins it. -/
def InnerCommitMatrixParams.RolePinned (m : InnerCommitMatrixParams) : Prop :=
  ∀ key, m.securityRoute = .linf key → key.role = .inner

theorem InnerCommitMatrixParams.Frozen.keyed {m : InnerCommitMatrixParams} (h : m.Frozen) : m.Keyed := by
  obtain ⟨key, hroute, hkey⟩ := h
  intro key' hroute'
  obtain rfl : key = key' := by simpa [hroute] using hroute'
  exact hkey

theorem InnerCommitMatrixParams.Frozen.keyed_of_bytes {a b : InnerCommitMatrixParams} (ha : a.Frozen) (hb : b.RolePinned)
    {r s : List UInt8} (h : a.descriptorBytes ++ r = b.descriptorBytes ++ s) : b.Keyed := by
  obtain ⟨key, hroute, -, hdigest⟩ := ha
  intro key' hroute'
  refine ⟨hb key' hroute', ?_⟩
  simp only [descriptorBytes, hroute, hroute', cons_append, nil_append, append_assoc, List.cons.injEq] at h
  obtain ⟨-, -, -, h⟩ := h
  obtain ⟨hdigests, -⟩ := digest_prefixFree.split h
  exact hdigests.symm.trans hdigest

theorem GroupCommitPhaseParams.eq_of_descriptorBytes {a b : GroupCommitPhaseParams} (ha : a.inner.matrix.Frozen)
    (hb : b.inner.matrix.RolePinned) (h : a.descriptorBytes = b.descriptorBytes) : a = b := by
  have hkeyed : b.inner.matrix.Keyed := by
    have h' := h
    simp only [descriptorBytes, RoleParams.descriptorBytes, cons_append, nil_append, append_assoc,
      List.cons.injEq] at h'
    obtain ⟨-, h1⟩ := h'
    obtain ⟨-, h2⟩ := pushUsize_prefixFree.split h1
    obtain ⟨-, h3⟩ := pushUsize_prefixFree.split h2
    obtain ⟨-, h4⟩ := BlockGeometry.descriptorBytes_prefixFree.split h3
    obtain ⟨-, h5⟩ := CommitmentSliceCount.descriptorBytes_prefixFree.split h4
    obtain ⟨-, h6⟩ := GadgetDigits.descriptorBytes_prefixFree.split h5
    exact ha.keyed_of_bytes hb h6
  exact descriptorBytes_prefixFreeOn.injOn ha.keyed hkeyed h

/-- **An order key stands for one lookup key**, among frozen profiles and profiles with pinned roles. -/
theorem canonicalOrderKey_injective {a b : ScheduleLookupKey}
    (ha : ∀ profile ∈ a.precommitteds, profile.inner.matrix.Frozen)
    (hb : ∀ profile ∈ b.precommitteds, profile.inner.matrix.RolePinned)
    (h : a.canonicalOrderKey = b.canonicalOrderKey) : a = b := by
  obtain ⟨len, ⟨vars, polys⟩, profiles⟩ := a
  obtain ⟨len', ⟨vars', polys'⟩, profiles'⟩ := b
  simp only [ScheduleLookupKey.canonicalOrderKey, EmbeddingLike.apply_eq_iff_eq, Prod.mk.injEq] at h ha hb
  obtain ⟨hvars, hpolys, hcount, hprofs, hlen⟩ := h
  have hprofs : profiles = profiles' := by
    refine ext_getElem hcount fun i hi hi' => ?_
    refine GroupCommitPhaseParams.eq_of_descriptorBytes (ha _ (getElem_mem hi)) (hb _ (getElem_mem hi')) ?_
    have hbytes := getElem_of_eq hprofs (i := i) (by simpa using hi)
    simp only [getElem_map] at hbytes
    exact map_injective_iff.2 (fun x y hxy => UInt8.toNat_inj.1 hxy) hbytes
  obtain rfl := UInt64.toNat_inj.1 hvars
  obtain rfl := UInt64.toNat_inj.1 hpolys
  obtain rfl := UInt64.toNat_inj.1 hlen
  rw [hprofs]

/-! ### The constructor -/

theorem not_hasEqualNeighbours {α κ : Type} [DecidableEq κ] {key : α → κ} {l : List α}
    (h : ¬ hasEqualNeighbours key l = true) : ∀ pair ∈ l.zip l.tail, key pair.1 ≠ key pair.2 := by
  intro pair hpair heq
  exact h (any_eq_true.2 ⟨pair, hpair, decide_eq_true heq⟩)

section catalog

variable {𝔠 : CatalogBackend} {policy : PlannerPolicy 𝔠.Search} {hooks : ℕ → Result SparseChallengeConfig}
  {row : ResolvedScheduleRow}

structure BuiltCatalog (policy : PlannerPolicy 𝔠.Search) (hooks : ℕ → Result SparseChallengeConfig) (familyName : String)
    (c : ValidatedScheduleCatalog 𝔠.Search) : Prop where
  familyName_valid : validateFamilyName familyName = .ok ()
  rows_ne_nil : c.rowsByDigest ≠ []
  rows_le : c.rowsByDigest.length ≤ maxTrustedCatalogRows
  admitted : ∀ row ∈ c.rowsByDigest, admitCatalogRow policy hooks (row.profiles, row.schedule) = .ok row
  digests : c.rowsByDigest.Pairwise fun a b => Digest.order a.rowDigest < Digest.order b.rowDigest
  keys : c.rowsByKey.Pairwise fun a b => a.1 < b.1
  index : c.rowsByKey = indexByKey c.rowsByDigest
  eq : c = {
    policy, familyName
    policyDigest := 𝔠.policyDigest policy
    catalogDigest := catalogDigest 𝔠 familyName (𝔠.policyDigest policy) (c.rowsByDigest.map ResolvedScheduleRow.rowDigest)
    coverage := .complete
    rowsByDigest := c.rowsByDigest
    rowsByKey := c.rowsByKey }

theorem admitCatalogRow_eq_ok {entry : CommittedGroupBatchProfile × FoldSchedule}
    (h : admitCatalogRow policy hooks entry = .ok row) : entry = (row.profiles, row.schedule) := by
  simp only [admitCatalogRow, ResolvedScheduleRow.tryNew, result_ok] at h
  obtain ⟨_, ⟨-, -, _, -, rfl⟩, -, -, rfl⟩ := h
  rfl

theorem tryNew_of_admitCatalogRow (h : admitCatalogRow policy hooks (row.profiles, row.schedule) = .ok row) :
    ResolvedScheduleRow.tryNew policy row.profiles row.schedule = .ok row := by
  simp only [admitCatalogRow, result_ok] at h
  obtain ⟨_, hrow, -, -, rfl⟩ := h
  exact hrow

theorem indexByKey_strict {rows : List ResolvedScheduleRow} (h : ¬ hasEqualNeighbours Prod.fst (indexByKey rows) = true) :
    (indexByKey rows).Pairwise fun a b => a.1 < b.1 := by
  have hsorted : (indexByKey rows).Pairwise fun a b => indexOrder rows a ≤ indexOrder rows b :=
    pairwise_insertionSort_key (indexOrder rows) _
  refine strictly_sorted (hsorted.imp fun {a b} hab => ?_) (not_hasEqualNeighbours h)
  rcases Prod.Lex.toLex_le_toLex.1 hab with hlt | ⟨heq, -⟩
  · exact le_of_lt hlt
  · exact le_of_eq heq

/-- **The constructor's facts.** -/
theorem ValidatedScheduleCatalog.built_of_tryNew {familyName : String}
    {rows : List (CommittedGroupBatchProfile × FoldSchedule)} {c : ValidatedScheduleCatalog 𝔠.Search}
    (h : tryNew policy hooks familyName rows = .ok c) : BuiltCatalog policy hooks familyName c := by
  simp only [tryNew, result_ok, not_or, not_lt] at h
  obtain ⟨hname, ⟨hne, hlen⟩, resolved, hresolv, hkeys, hdigests, rfl⟩ := h
  have hall := forall₂_of_mapM hresolv
  have hperm : (sortByDigest resolved).Perm resolved := perm_insertionSort _ _
  have hsorted : (sortByDigest resolved).Pairwise fun a b => Digest.order a.rowDigest ≤ Digest.order b.rowDigest :=
    pairwise_insertionSort_key (fun row : ResolvedScheduleRow => Digest.order row.rowDigest) _
  refine ⟨hname, ?_, ?_, ?_, ?_, indexByKey_strict hkeys, rfl, rfl⟩
  · intro hnil
    have hnil : sortByDigest resolved = [] := hnil
    have hempty : resolved = [] := List.Perm.nil_eq (hnil ▸ hperm) |>.symm
    exact hne (length_eq_zero_iff.1 (by rw [hall.length_eq, hempty]; rfl))
  · rw [hperm.length_eq, ← hall.length_eq]
    exact hlen
  · intro row hrow
    obtain ⟨i, hi, rfl⟩ := getElem_of_mem (hperm.mem_iff.1 hrow)
    have hadmit := List.Forall₂.get hall (by rw [hall.length_eq]; exact hi) hi
    simp only [get_eq_getElem] at hadmit
    rwa [← admitCatalogRow_eq_ok hadmit]
  · refine strictly_sorted hsorted fun pair hpair heq => ?_
    exact not_hasEqualNeighbours hdigests pair hpair (Digest.order_injective heq)

/-! ### The searches -/

namespace BuiltCatalog

variable {familyName : String} {c : ValidatedScheduleCatalog 𝔠.Search} {a b : ResolvedScheduleRow}

section

variable (hc : BuiltCatalog policy hooks familyName c)

include hc

theorem mem_rowsByKey {entry : ScheduleLookupOrderKey × ℕ} :
    entry ∈ c.rowsByKey ↔ ∃ row, c.rowsByDigest[entry.2]? = some row ∧ entry.1 = row.lookupKey.canonicalOrderKey := by
  rw [hc.index, indexByKey, (perm_insertionSort _ _).mem_iff, mem_map]
  constructor
  · rintro ⟨⟨row, index⟩, hmem, rfl⟩
    exact ⟨row, mem_zipIdx_iff_getElem?.1 hmem, rfl⟩
  · rintro ⟨row, hrow, hkey⟩
    exact ⟨(row, entry.2), mem_zipIdx_iff_getElem?.2 hrow, Prod.ext hkey.symm rfl⟩

theorem eq_of_rowDigest (ha : a ∈ c.rowsByDigest) (hb : b ∈ c.rowsByDigest) (h : a.rowDigest = b.rowDigest) : a = b :=
  mem_key_injective hc.digests ha hb (congrArg Digest.order h)

theorem eq_of_canonicalOrderKey (ha : a ∈ c.rowsByDigest) (hb : b ∈ c.rowsByDigest)
    (h : a.lookupKey.canonicalOrderKey = b.lookupKey.canonicalOrderKey) : a = b := by
  obtain ⟨i, hi⟩ := mem_iff_getElem?.1 ha
  obtain ⟨j, hj⟩ := mem_iff_getElem?.1 hb
  have hia : (a.lookupKey.canonicalOrderKey, i) ∈ c.rowsByKey := hc.mem_rowsByKey.2 ⟨a, hi, rfl⟩
  have hjb : (b.lookupKey.canonicalOrderKey, j) ∈ c.rowsByKey := hc.mem_rowsByKey.2 ⟨b, hj, rfl⟩
  have hentry := mem_key_injective hc.keys hia hjb h
  obtain rfl : i = j := congrArg Prod.snd hentry
  exact Option.some_inj.1 (hi.symm.trans hj)

theorem digests_le : c.rowsByDigest.Pairwise fun a b => Digest.order a.rowDigest ≤ Digest.order b.rowDigest :=
  hc.digests.imp fun hab => le_of_lt hab

theorem keys_le : c.rowsByKey.Pairwise fun a b => a.1 ≤ b.1 := hc.keys.imp fun hab => le_of_lt hab

theorem lookupKey_frozen (hrow : row ∈ c.rowsByDigest) :
    ∀ profile ∈ row.lookupKey.precommitteds, profile.inner.matrix.Frozen :=
  ResolvedScheduleRow.frozen_of_tryNew (tryNew_of_admitCatalogRow (hc.admitted row hrow))

/-- **The lookup by digest is exact**: it returns the row with that digest, or an error when there is none. -/
theorem resolveSelection_eq (d : Digest) :
    (∀ row, c.resolveSelection d = .ok row ↔ row ∈ c.rowsByDigest ∧ row.rowDigest = d) ∧
      ((∀ row ∈ c.rowsByDigest, row.rowDigest ≠ d) → c.resolveSelection d =
        .error (.unsupportedSchedule "selected schedule row is not present in the trusted catalog")) := by
  unfold resolveSelection
  rcases hsearch : binarySearchByKey (fun row : ResolvedScheduleRow => Digest.order row.rowDigest) (Digest.order d)
    c.rowsByDigest with stop | index
  · have hnone := search_key_error hc.digests_le hsearch
    refine ⟨fun row => iff_of_false (by simp) ?_, fun _ => rfl⟩
    rintro ⟨hrow, rfl⟩
    exact hnone row hrow rfl
  · obtain ⟨found, hfound, hkey⟩ := search_key_ok hsearch
    have hdigest : found.rowDigest = d := Digest.order_injective hkey
    have hmem := mem_of_getElem? hfound
    simp only [hfound, okOr]
    refine ⟨fun row => ⟨?_, ?_⟩, fun hnone => absurd hdigest (hnone found hmem)⟩
    · rintro ⟨⟩
      exact ⟨hmem, hdigest⟩
    · rintro ⟨hrow, hrowDigest⟩
      rw [hc.eq_of_rowDigest hmem hrow (hdigest.trans hrowDigest.symm)]

theorem resolveKey_order (key : ScheduleLookupKey) :
    (∃ row ∈ c.rowsByDigest, row.lookupKey.canonicalOrderKey = key.canonicalOrderKey ∧ c.resolveKey key = .ok row) ∨
      (∀ row ∈ c.rowsByDigest, row.lookupKey.canonicalOrderKey ≠ key.canonicalOrderKey) ∧
        c.resolveKey key = .error (unsupportedScheduleLookup 𝔠 key false) := by
  obtain ⟨hbelow, habove⟩ := partitionPoint_spec (k := key.canonicalOrderKey) hc.keys_le
  -- an entry with the key stands at the partition point
  have hat : ∀ entry ∈ c.rowsByKey, entry.1 = key.canonicalOrderKey →
      c.rowsByKey[partitionPoint (fun entry => decide (entry.1 < key.canonicalOrderKey)) c.rowsByKey]? = some entry := by
    intro entry hentry hkey
    obtain ⟨i, hi⟩ := List.mem_iff_getElem?.1 hentry
    have hge : partitionPoint (fun entry => decide (entry.1 < key.canonicalOrderKey)) c.rowsByKey ≤ i := by
      by_contra hlt
      exact absurd (hbelow i entry (not_le.1 hlt) hi) (by rw [hkey]; exact lt_irrefl _)
    have hilt : i < c.rowsByKey.length := (List.getElem?_eq_some_iff.1 hi).1
    have hstart := List.getElem?_eq_getElem (hge.trans_lt hilt)
    rw [hstart]
    have hle := habove _ _ le_rfl hstart
    have hstep := key_le_of_le hc.keys_le hge hilt
    rw [(List.getElem?_eq_some_iff.1 hi).2, hkey] at hstep
    exact congrArg some (mem_key_injective hc.keys (List.getElem_mem _) hentry ((le_antisymm hstep hle).trans hkey.symm))
  unfold resolveKey resolveKeyMatching
  rcases hstart : c.rowsByKey[partitionPoint (fun entry => decide (entry.1 < key.canonicalOrderKey)) c.rowsByKey]? with
    _ | ⟨rowKey, index⟩
  · refine Or.inr ⟨fun row hrow hkey => ?_, by simp [hstart, okOr, bind, Except.bind]⟩
    obtain ⟨i, hi⟩ := List.mem_iff_getElem?.1 hrow
    rw [hat (_, i) (hc.mem_rowsByKey.2 ⟨row, hi, rfl⟩) hkey] at hstart
    cases hstart
  · obtain ⟨found, hfound, hfoundKey⟩ := hc.mem_rowsByKey.1 (List.mem_of_getElem? hstart)
    by_cases hkey : rowKey = key.canonicalOrderKey
    · refine Or.inl ⟨found, List.mem_of_getElem? hfound, hfoundKey.symm.trans hkey, ?_⟩
      simp_all [okOr, ensure, ok_run]
    · refine Or.inr ⟨fun row hrow hrowKey => ?_, ?_⟩
      · obtain ⟨i, hi⟩ := List.mem_iff_getElem?.1 hrow
        rw [hat (_, i) (hc.mem_rowsByKey.2 ⟨row, hi, rfl⟩) hrowKey] at hstart
        obtain ⟨rfl, -⟩ := Prod.mk.inj (Option.some_inj.1 hstart)
        exact hkey hrowKey
      · simp_all [okOr, ensure, bind, Except.bind]

/-- **The lookup by key is exact**: it returns the row with that key, or an error when there is none. -/
theorem resolveKey_eq {key : ScheduleLookupKey}
    (hkey : ∀ profile ∈ key.precommitteds, profile.inner.matrix.RolePinned) :
    (∀ row, c.resolveKey key = .ok row ↔ row ∈ c.rowsByDigest ∧ row.lookupKey = key) ∧
      ((∀ row ∈ c.rowsByDigest, row.lookupKey ≠ key) → c.resolveKey key =
        .error (unsupportedScheduleLookup 𝔠 key false)) := by
  have hexact : ∀ row ∈ c.rowsByDigest, row.lookupKey.canonicalOrderKey = key.canonicalOrderKey → row.lookupKey = key :=
    fun row hrow h => canonicalOrderKey_injective (hc.lookupKey_frozen hrow) hkey h
  rcases hc.resolveKey_order key with ⟨found, hfound, hfoundKey, hresolve⟩ | ⟨hnone, hresolve⟩
  · rw [hresolve]
    refine ⟨fun row => ⟨?_, ?_⟩, fun h => absurd (hexact found hfound hfoundKey) (h found hfound)⟩
    · rintro ⟨⟩
      exact ⟨hfound, hexact found hfound hfoundKey⟩
    · rintro ⟨hrow, rfl⟩
      rw [hc.eq_of_canonicalOrderKey hfound hrow hfoundKey]
  · rw [hresolve]
    refine ⟨fun row => iff_of_false (by simp) ?_, fun _ => rfl⟩
    rintro ⟨hrow, rfl⟩
    exact hnone row hrow rfl

end

end BuiltCatalog

end catalog

/-!
## Schedule artifacts are canonical

**Main result** (`catalog_canonical`): what the decoder accepts is what the accepted catalog encodes; a
built catalog that has an artifact is decoded from it, provided the JSON parser inverts the serializer on
that artifact (`CatalogBackend.Inverts`); and the lookups of an accepted catalog are exact.
-/

open Grinding (asciiBytes)

/-! ### Tokens -/

theorem escapeByte_familyName {b : UInt8} (h : isFamilyNameByte b = true) : escapeByte b = [b] := by
  simp only [isFamilyNameByte, isAsciiAlphanumeric, Bool.or_eq_true, decide_eq_true_eq, UInt8.le_iff_toNat_le,
    ← UInt8.toNat_inj, UInt8.reduceToNat] at h
  unfold escapeByte
  repeat rw [if_neg (by simp only [← UInt8.toNat_inj, UInt8.lt_iff_toNat_lt, UInt8.reduceToNat]; omega)]

theorem familyToken_length {familyName : String} {u : Unit} (h : validateFamilyName familyName = .ok u) :
    (stringToken (utf8Bytes familyName)).length ≤ maxFamilyNameBytes + 2 := by
  simp only [validateFamilyName, result_ok, not_or, not_lt] at h
  obtain ⟨⟨-, hlen⟩, first, hfirst, hstart, hrest⟩ := h
  have hplain : ∀ b ∈ utf8Bytes familyName, escapeByte b = [b] := by
    rcases hbytes : utf8Bytes familyName with _ | ⟨b, bs⟩
    · simp
    · rw [hbytes] at hfirst hrest
      obtain rfl : b = first := Option.some_inj.1 hfirst
      refine List.forall_mem_cons.2 ⟨escapeByte_familyName (by simp [isFamilyNameByte, hstart]), fun b hb => ?_⟩
      exact escapeByte_familyName (List.all_eq_true.1 hrest b hb)
  have hflat : (utf8Bytes familyName).flatMap escapeByte = utf8Bytes familyName := by
    rw [List.flatMap_congr hplain, List.flatMap_singleton']
  simp only [stringToken, hflat, List.length_append, List.length_singleton]
  omega

theorem visitRows_ok {raw tokens : List (List UInt8)} (hne : raw ++ tokens ≠ [])
    (hlen : raw.length + tokens.length ≤ maxTrustedCatalogRows)
    (hsmall : ∀ token ∈ tokens, token.length ≤ maxTrustedScheduleArtifactRowBytes) :
    visitRows raw (tokens.map Except.ok) = .ok (raw ++ tokens) := by
  induction tokens generalizing raw with
  | nil =>
    rw [List.append_nil] at hne ⊢
    simp [visitRows, hne]
  | cons token tokens ih =>
    rw [List.length_cons] at hlen
    rw [List.forall_mem_cons] at hsmall
    have hroom : ¬ raw.length ≥ maxTrustedCatalogRows := by omega
    rw [List.map_cons, visitRows, if_neg hroom, if_neg (not_lt.2 hsmall.1),
      ih (by simp) (by rw [List.length_append, List.length_singleton]; omega) hsmall.2]
    simp

/-! ### The decoder on an artifact -/

/-- The JSON parser inverts the serializer on an artifact with these schedules: the envelope gives back its fields, the
texts of its family name and of its rows, and a row's text gives back the schedule. -/
structure CatalogBackend.Inverts (𝔠 : CatalogBackend) (a : ScheduleCatalogArtifact) (schedules : List FoldSchedule) :
    Prop where
  envelope : ∀ visit, 𝔠.deserializeEnvelope visit (a.text (a.rows.map Json.rowToken)) =
    (visit ((a.rows.map Json.rowToken).map .ok)).map fun rows =>
      ⟨a.magic, a.version, a.protocolEpoch, a.policyDigest, stringToken a.familyName, rows⟩
  row : ∀ schedule ∈ schedules, 𝔠.deserializeRow schedule.rowJson.rowToken = .ok schedule

theorem not_hasEqualNeighbours_of_ne {α κ : Type} [DecidableEq κ] {key : α → κ} {l : List α}
    (h : l.Pairwise fun a b => key a ≠ key b) : ¬ hasEqualNeighbours key l = true := by
  induction l with
  | nil => simp [hasEqualNeighbours]
  | cons a l ih =>
    rcases l with _ | ⟨b, l⟩
    · simp [hasEqualNeighbours]
    · obtain ⟨ha, hl⟩ := List.pairwise_cons.1 h
      simp_all [hasEqualNeighbours]

section catalog

variable {𝔠 : CatalogBackend} {policy : PlannerPolicy 𝔠.Search} {hooks : ℕ → Result SparseChallengeConfig}
  {familyName : String} {c : ValidatedScheduleCatalog 𝔠.Search}

theorem intoProfileAndSchedule_of_tryNew {row : ResolvedScheduleRow}
    (h : ResolvedScheduleRow.tryNew policy row.profiles row.schedule = .ok row) :
    intoProfileAndSchedule row.schedule = .ok (row.profiles, row.schedule) := by
  have hacc := ResolvedScheduleRow.accepted_of_tryNew h
  have htopology : row.schedule.root.params.groups.validateTopology = .ok () := by
    simp only [FoldGroups.validateTopology, result_ok]
    exact ⟨hacc.root.own_not_prefix, hacc.root.later_not_prefix⟩
  have hprofs : row.profiles = ⟨row.schedule.root.params.ownGroup.profile,
      row.schedule.root.params.precommittedGroups.map (·.profile)⟩ := by
    rw [← hacc.finalGroup, ← hacc.precommitteds]
  rw [intoProfileAndSchedule, htopology, hprofs]
  rfl

namespace BuiltCatalog

variable {bytes : List UInt8}

section

variable (hc : BuiltCatalog policy hooks familyName c)

include hc

theorem decodeRows_eq
    (hrow : ∀ schedule ∈ c.rowsByDigest.map (·.schedule), 𝔠.deserializeRow schedule.rowJson.rowToken = .ok schedule) :
    (c.artifact.rows.map Json.rowToken).zipIdx.mapM (decodeRow 𝔠) =
      .ok (c.rowsByDigest.map fun row => (row.profiles, row.schedule)) := by
  have hindexed : (c.artifact.rows.map Json.rowToken).zipIdx =
      c.rowsByDigest.zipIdx.map fun entry => (entry.1.schedule.rowJson.rowToken, entry.2) := by
    rw [ValidatedScheduleCatalog.artifact, List.map_map, List.zipIdx_map]
    rfl
  have hdecode : ∀ entry ∈ c.rowsByDigest.zipIdx, (decodeRow 𝔠 ∘ fun entry : ResolvedScheduleRow × ℕ =>
      (entry.1.schedule.rowJson.rowToken, entry.2)) entry = .ok (entry.1.profiles, entry.1.schedule) := by
    intro entry hentry
    have hmem := List.mem_of_getElem? (List.mem_zipIdx_iff_getElem?.1 hentry)
    have hparse := hrow _ (List.mem_map_of_mem hmem)
    simp only [Function.comp_apply, decodeRow, hparse, mapErr]
    exact intoProfileAndSchedule_of_tryNew (tryNew_of_admitCatalogRow (hc.admitted _ hmem))
  rw [hindexed, List.mapM_map, mapM_ok_of_forall hdecode]
  have hfirst := List.map_map (f := Prod.fst) (g := fun row : ResolvedScheduleRow => (row.profiles, row.schedule))
    (l := c.rowsByDigest.zipIdx)
  rw [List.zipIdx_map_fst] at hfirst
  exact congrArg Except.ok hfirst.symm

theorem tryNew_rows :
    ValidatedScheduleCatalog.tryNew policy hooks familyName (c.rowsByDigest.map fun row => (row.profiles, row.schedule)) =
      .ok c := by
  have hlen : (c.rowsByDigest.map fun row => (row.profiles, row.schedule)).length ≤ maxTrustedCatalogRows := by
    rw [List.length_map]
    exact hc.rows_le
  have hne : (c.rowsByDigest.map fun row => (row.profiles, row.schedule)) ≠ [] := by
    simpa using hc.rows_ne_nil
  have hresolv : (c.rowsByDigest.map fun row => (row.profiles, row.schedule)).mapM (admitCatalogRow policy hooks) =
      .ok c.rowsByDigest := by
    have hadmit : ∀ row ∈ c.rowsByDigest, (admitCatalogRow policy hooks ∘ fun row : ResolvedScheduleRow =>
        (row.profiles, row.schedule)) row = .ok (id row) := hc.admitted
    rw [List.mapM_map, mapM_ok_of_forall hadmit, List.map_id]
  have hsorted : sortByDigest c.rowsByDigest = c.rowsByDigest := hc.digests_le.insertionSort_eq
  have hkeys : ¬ hasEqualNeighbours Prod.fst (indexByKey c.rowsByDigest) = true := by
    rw [← hc.index]
    exact not_hasEqualNeighbours_of_ne (hc.keys.imp fun hab => hab.ne)
  have hdigests : ¬ hasEqualNeighbours ResolvedScheduleRow.rowDigest c.rowsByDigest = true :=
    not_hasEqualNeighbours_of_ne (hc.digests.imp fun hab heq => hab.ne (congrArg Digest.order heq))
  rw [ValidatedScheduleCatalog.tryNew, hc.familyName_valid, List.take_of_length_le (by omega)]
  simp only [hresolv, hsorted, ensure, hne, not_lt.2 hlen, hkeys, hdigests, ok_bind, or_self, not_false_eq_true, if_true]
  rw [hc.eq, hc.index]
  rfl

/-- **When a built catalog has an artifact**: exactly when its rows and its text fit their limits. -/
theorem toArtifactBytes_eq_ok : c.toArtifactBytes = .ok bytes ↔
      (∀ row ∈ c.rowsByDigest, row.schedule.rowJson.rowToken.length ≤ maxTrustedScheduleArtifactRowBytes) ∧
        c.artifact.document.length ≤ maxTrustedScheduleArtifactBytes ∧ bytes = c.artifact.document := by
  have hcompl : c.validateComplete = .ok () := by
    rw [hc.eq]
    rfl
  rw [ValidatedScheduleCatalog.toArtifactBytes, hcompl, ok_bind, encodeArtifact_eq_ok]
  simp only [ValidatedScheduleCatalog.artifact, List.forall_mem_map]

theorem check_envelope (rows : List (List UInt8)) :
    ScheduleCatalogEnvelope.check ⟨c.artifact.magic, c.artifact.version, c.artifact.protocolEpoch, c.artifact.policyDigest,
      stringToken c.artifact.familyName, rows⟩ familyName (𝔠.policyDigest policy) = .ok () := by
  have hfam : c.familyName = familyName := by rw [hc.eq]
  have hpolicy : c.policyDigest = 𝔠.policyDigest policy := by rw [hc.eq]
  simp only [ScheduleCatalogEnvelope.check, result_ok, ValidatedScheduleCatalog.artifact, hfam, hpolicy]
  exact ⟨by simp, trivial, not_lt.2 (familyToken_length hc.familyName_valid), trivial, trivial⟩

/-- **A built catalog is decoded from its artifact.** -/
theorem fromArtifactBytes_eq
    (hinverts : 𝔠.Inverts c.artifact (c.rowsByDigest.map (·.schedule))) (h : c.toArtifactBytes = .ok bytes) :
    ValidatedScheduleCatalog.fromArtifactBytes policy hooks bytes familyName = .ok c := by
  obtain ⟨hsmall, hlen, rfl⟩ := hc.toArtifactBytes_eq_ok.1 h
  have hbytes : ¬ (c.artifact.document = [] ∨ c.artifact.document.length > maxTrustedScheduleArtifactBytes) := by
    rw [not_or, not_lt]
    refine ⟨fun hnil => ?_, hlen⟩
    rw [ScheduleCatalogArtifact.document_rows] at hnil
    cases hnil
  -- the visitor keeps the tokens of all rows
  have hvisit : visitRows [] ((c.artifact.rows.map Json.rowToken).map .ok) = .ok (c.artifact.rows.map Json.rowToken) := by
    refine visitRows_ok (by simpa [ValidatedScheduleCatalog.artifact] using hc.rows_ne_nil) ?_ ?_
    · simpa [ValidatedScheduleCatalog.artifact] using hc.rows_le
    · simpa [ValidatedScheduleCatalog.artifact] using hsmall
  have henvelope := hinverts.envelope (visitRows [])
  rw [hvisit, ← ScheduleCatalogArtifact.document_rows] at henvelope
  simp only [ValidatedScheduleCatalog.fromArtifactBytes, ensure, if_pos hbytes, hc.familyName_valid, henvelope, Except.map,
    mapErr, ok_bind, hc.check_envelope, hc.decodeRows_eq hinverts.row, hc.tryNew_rows, h, if_true]
  rfl

end

end BuiltCatalog

/-- A catalog that the constructor or the decoder returned. -/
def Accepted (policy : PlannerPolicy 𝔠.Search) (hooks : ℕ → Result SparseChallengeConfig)
    (c : ValidatedScheduleCatalog 𝔠.Search) : Prop :=
  (∃ familyName rows, ValidatedScheduleCatalog.tryNew policy hooks familyName rows = .ok c) ∨
    ∃ bytes familyName, ValidatedScheduleCatalog.fromArtifactBytes policy hooks bytes familyName = .ok c

/-- A decoded catalog was built from the rows of its artifact, and encodes to that artifact. -/
theorem fromArtifactBytes_eq_ok {bytes : List UInt8}
    (h : ValidatedScheduleCatalog.fromArtifactBytes policy hooks bytes familyName = .ok c) :
    BuiltCatalog policy hooks familyName c ∧ c.toArtifactBytes = .ok bytes := by
  simp only [ValidatedScheduleCatalog.fromArtifactBytes, result_ok] at h
  obtain ⟨-, -, envelope, -, -, rows, -, catalog, hcatalog, bytes', hbytes, rfl, rfl⟩ := h
  exact ⟨ValidatedScheduleCatalog.built_of_tryNew hcatalog, hbytes⟩

theorem Accepted.built (h : Accepted policy hooks c) : ∃ familyName, BuiltCatalog policy hooks familyName c := by
  rcases h with ⟨familyName, rows, h⟩ | ⟨bytes, familyName, h⟩
  · exact ⟨familyName, ValidatedScheduleCatalog.built_of_tryNew h⟩
  · exact ⟨familyName, (fromArtifactBytes_eq_ok h).1⟩

end catalog

/-! ### A catalog with the shipped row -/

/-- The artifact whose one row is the shipped row. -/
def oneHotArtifact : ScheduleCatalogArtifact where
  magic := artifactMagic
  version := artifactVersion
  protocolEpoch := akitaInstanceDescriptorVersion
  policyDigest := ⟨#[0xc0, 0x40, 0x2d, 0x51, 0x0d, 0x4a, 0xdf, 0x4b, 0x6a, 0xea, 0x65, 0x9b, 0xfd, 0x2c, 0xbb, 0x50,
    0x4e, 0x76, 0x95, 0x3f, 0x9b, 0x38, 0xa1, 0xe7, 0x9f, 0x86, 0x97, 0xe4, 0x0c, 0xb7, 0x17, 0xc4], rfl⟩
  familyName := utf8Bytes "fp128_onehot"
  rows := [(oneHotSchedule 182).rowJson]

def parserAt {α : Type} (text : List UInt8) (value : α) (bytes : List UInt8) : Except String α :=
  if bytes = text then .ok value else .error "expected value"

theorem parserAt_self {α : Type} (text : List UInt8) (value : α) : parserAt text value text = .ok value := if_pos rfl

/-- The backend with a parser for the texts of that artifact. -/
def oneHotCatalogBackend : CatalogBackend where
  toAuditBackend := oneHotBackend
  policyDigest _ := oneHotArtifact.policyDigest
  deserializeEnvelope visit bytes :=
    (parserAt oneHotArtifact.document ((oneHotArtifact.rows.map Json.rowToken).map Except.ok) bytes).bind fun tokens =>
      (visit tokens).map fun rows => ⟨artifactMagic, artifactVersion, akitaInstanceDescriptorVersion,
        oneHotArtifact.policyDigest, stringToken oneHotArtifact.familyName, rows⟩
  deserializeRow := parserAt (oneHotSchedule 182).rowJson.rowToken (oneHotSchedule 182)
  debugKey _ := "ScheduleLookupKey"

def oneHotHooks (_ : ℕ) : Result SparseChallengeConfig := .ok ⟨31, 10⟩

theorem oneHotCatalogBackend_inverts : oneHotCatalogBackend.Inverts oneHotArtifact [oneHotSchedule 182] := by
  refine ⟨fun visit => ?_, fun schedule hsched => ?_⟩
  · rw [← ScheduleCatalogArtifact.document_rows]
    simp only [oneHotCatalogBackend, parserAt_self, Except.bind]
    rfl
  · rw [List.mem_singleton.1 hsched]
    simp only [oneHotCatalogBackend, parserAt_self]

theorem oneHotArtifact_document_length : oneHotArtifact.document.length ≤ maxTrustedScheduleArtifactBytes := by
  decide +kernel

theorem oneHotSchedule_token_length :
    (oneHotSchedule 182).rowJson.rowToken.length ≤ maxTrustedScheduleArtifactRowBytes := by
  decide +kernel

theorem oneHotSchedule_admitted : ∃ digest,
    @admitCatalogRow oneHotCatalogBackend oneHotPolicy oneHotHooks (oneHotProfiles, oneHotSchedule 182) =
      .ok ⟨digest, oneHotProfiles, oneHotSchedule 182⟩ := ⟨_, rfl⟩

end Akita.Schedule
