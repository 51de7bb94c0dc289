import Akita.Spec.ScheduleJson

/-!
# The text of an artifact depends on depth only

The formatter keeps a stack of containers and the writer stops at a limit. `render` is the text of a
value at a depth, with neither. **Main result** (`encodeArtifact_eq_ok`): an artifact is encoded exactly
when its text and the tokens of its rows fit their limits, and its bytes are then that text. The token of
a row is its text at depth 2, in the document (`document_rows`) as in the preflight.
-/

namespace Akita.Schedule

open Json

open Grinding (asciiBytes)

variable {field : List UInt8 × Json} {l m : List (List UInt8 × Json)} {limit : ℕ} {row : Json} {a : ScheduleCatalogArtifact}

/-! ## Texts -/

def indentText : ℕ → List UInt8
  | 0 => []
  | depth + 1 => asciiBytes "  " ++ indentText depth

/-- What stands before a value of a container whose values are at `depth`. -/
def openText (pretty : Bool) (depth : ℕ) (first : Bool) : List UInt8 :=
  if pretty then asciiBytes (if first then "\n" else ",\n") ++ indentText depth
  else if first then [] else asciiBytes ","

/-- What stands before the end of a container at `depth`. -/
def closeText (container : ArtifactContainer) (depth : ℕ) : List UInt8 :=
  if container.pretty && container.hasValue then asciiBytes "\n" ++ indentText depth else []

/-- What stands between a name and its value. -/
def colonText (pretty : Bool) : List UInt8 := asciiBytes (if pretty then ": " else ":")

mutual

def Json.render (depth : ℕ) : Json → List UInt8
  | .null => asciiBytes "null"
  | .number n => numberToken n
  | .string text => stringToken text
  | .array items => [0x5b] ++ (renderItems (prettyArray depth) (depth + 1) true items ++
      (closeText ⟨prettyArray depth, !items.isEmpty⟩ depth ++ [0x5d]))
  | .object fields => [0x7b] ++ (renderFields (prettyObject depth) (depth + 1) true fields ++
      (closeText ⟨prettyObject depth, !fields.isEmpty⟩ depth ++ [0x7d]))

def Json.renderItems (pretty : Bool) (depth : ℕ) (first : Bool) : List Json → List UInt8
  | [] => []
  | item :: items => openText pretty depth first ++ (item.render depth ++ renderItems pretty depth false items)

/-- The fields of an object, at their depth. -/
def Json.renderFields (pretty : Bool) (depth : ℕ) (first : Bool) : List (List UInt8 × Json) → List UInt8
  | [] => []
  | (name, value) :: fields => openText pretty depth first ++ (stringToken name ++ (colonText pretty ++
      (value.render depth ++ renderFields pretty depth false fields)))

end

/-! ## Encoders that write a text -/

/-- From the stack `c` the encoder writes `text`, unless the limit stops it, and leaves the stack `c'`. -/
def Emits (limit : ℕ) (f : EncoderState → Except EncodeError EncoderState) (c c' : List ArtifactContainer)
    (text : List UInt8) : Prop := ∀ bytes : List UInt8, bytes.length ≤ limit → f ⟨c, bytes⟩ =
    if bytes.length + text.length ≤ limit then .ok ⟨c', bytes ++ text⟩ else .error .limitExceeded

section

variable {f g : EncoderState → Except EncodeError EncoderState} {c c' c'' : List ArtifactContainer} {text text' : List UInt8}

theorem Emits.bind (hf : Emits limit f c c' text) (hg : Emits limit g c' c'' text') :
    Emits limit (fun s => f s >>= g) c c'' (text ++ text') := by
  intro bytes hbytes
  simp only [hf bytes hbytes]
  split
  · rename_i hfits
    have hstep := hg (bytes ++ text) (by simpa using hfits)
    simp only [List.length_append, List.append_assoc, add_assoc] at hstep ⊢
    exact hstep
  · rename_i hover
    rw [List.length_append, if_neg (by omega)]
    rfl

theorem emits_ok (c : List ArtifactContainer) : Emits limit .ok c c [] := by
  intro bytes hbytes
  simp [hbytes]

theorem writeAll_emits (chunk : List UInt8) : Emits limit (writeAll limit chunk) c c chunk := by
  intro bytes _
  simp only [writeAll, gt_iff_lt]
  split
  · rw [if_neg (by omega)]
  · rw [if_pos (by omega)]

theorem writeIndent_emits (depth : ℕ) : Emits limit (writeIndent limit depth) c c (indentText depth) := by
  induction depth with
  | zero => exact emits_ok c
  | succ depth ih => exact (writeAll_emits _).bind ih

variable {container : ArtifactContainer}

theorem beginContainer_emits (delimiter : UInt8) (pretty : Bool) :
    Emits limit (beginContainer limit delimiter pretty) c (⟨pretty, false⟩ :: c) [delimiter] :=
  fun bytes hbytes => writeAll_emits (c := ⟨pretty, false⟩ :: c) [delimiter] bytes hbytes

theorem breakLine_emits : Emits limit (breakLine limit container) c c (closeText container c.length) := by
  unfold breakLine closeText
  split
  · exact (writeAll_emits _).bind fun bytes hbytes => writeIndent_emits c.length bytes hbytes
  · exact emits_ok c

theorem endContainer_emits (delimiter : UInt8) :
    Emits limit (endContainer limit delimiter) (container :: c) c (closeText container c.length ++ [delimiter]) :=
  breakLine_emits.bind (writeAll_emits [delimiter])

theorem beginValue_emits (first : Bool) : Emits limit (beginValue limit first) (container :: c) (container :: c)
    (openText container.pretty (c.length + 1) first) := by
  intro bytes hbytes
  simp only [beginValue, openText]
  split
  · exact ((writeAll_emits _).bind fun bytes hbytes => writeIndent_emits (c.length + 1) bytes hbytes) bytes hbytes
  · split
    · exact emits_ok _ bytes hbytes
    · exact writeAll_emits _ bytes hbytes

theorem finishValue_emits : Emits limit finishValue (container :: c) ({ container with hasValue := true } :: c) [] := by
  intro bytes hbytes
  simp [finishValue, hbytes]

theorem beginObjectValue_emits : Emits limit (beginObjectValue limit) (container :: c) (container :: c)
    (colonText container.pretty) := fun bytes hbytes => writeAll_emits (colonText container.pretty) bytes hbytes

end

/-! ## The serializer writes the text -/

section

mutual

/-- **The serializer writes the text of a value at its depth.** -/
theorem serialize_emits : ∀ (j : Json) (c : List ArtifactContainer), Emits limit (serialize limit j) c c (j.render c.length)
  | .null, _ => writeAll_emits _
  | .number _, _ => writeAll_emits _
  | .string _, _ => writeAll_emits _
  | .array items, c => by
    have hbegin : Emits limit (beginArray limit) c (⟨prettyArray c.length, false⟩ :: c) [0x5b] :=
      fun bytes hbytes => beginContainer_emits _ _ bytes hbytes
    exact hbegin.bind ((serializeItems_emits true false items _ c).bind (endContainer_emits 0x5d))
  | .object fields, c => by
    have hbegin : Emits limit (beginObject limit) c (⟨prettyObject c.length, false⟩ :: c) [0x7b] :=
      fun bytes hbytes => beginContainer_emits _ _ bytes hbytes
    exact hbegin.bind ((serializeFields_emits true false fields _ c).bind (endContainer_emits 0x7d))

theorem serializeItems_emits (first hasValue : Bool) : ∀ (items : List Json) (pretty : Bool) (c : List ArtifactContainer),
    Emits limit (serializeItems limit first items) (⟨pretty, hasValue⟩ :: c) (⟨pretty, hasValue || !items.isEmpty⟩ :: c)
      (renderItems pretty (c.length + 1) first items)
  | [], pretty, c => fun bytes hbytes => by
    simpa [serializeItems, renderItems] using emits_ok (⟨pretty, hasValue⟩ :: c) bytes hbytes
  | item :: items, pretty, c => fun bytes hbytes => by
    have hrest := serializeItems_emits false true items pretty c
    have hall := (beginValue_emits first).bind ((serialize_emits item (⟨pretty, hasValue⟩ :: c)).bind
      (finishValue_emits.bind hrest))
    rw [serializeItems, renderItems]
    simpa using hall bytes hbytes

theorem serializeFields_emits (first hasValue : Bool) :
    ∀ (fields : List (List UInt8 × Json)) (pretty : Bool) (c : List ArtifactContainer),
    Emits limit (serializeFields limit first fields) (⟨pretty, hasValue⟩ :: c) (⟨pretty, hasValue || !fields.isEmpty⟩ :: c)
      (renderFields pretty (c.length + 1) first fields)
  | [], pretty, c => fun bytes hbytes => by
    simpa [serializeFields, renderFields] using emits_ok (⟨pretty, hasValue⟩ :: c) bytes hbytes
  | (name, value) :: fields, pretty, c => fun bytes hbytes => by
    have hrest := serializeFields_emits false true fields pretty c
    have hall := (beginValue_emits first).bind ((writeAll_emits (stringToken name)).bind (beginObjectValue_emits.bind
      ((serialize_emits value (⟨pretty, hasValue⟩ :: c)).bind (finishValue_emits.bind hrest))))
    rw [serializeFields, renderFields]
    simpa using hall bytes hbytes

end

end

/-! ## Artifacts -/

def ScheduleCatalogArtifact.json (a : ScheduleCatalogArtifact) : Json :=
  .object (a.header ++ [(asciiBytes "rows", .array a.rows)])

def ScheduleCatalogArtifact.document (a : ScheduleCatalogArtifact) : List UInt8 := a.json.render 0

def Json.rowToken (row : Json) : List UInt8 := row.render 2

def rowLines (first : Bool) : List (List UInt8) → List UInt8
  | [] => []
  | token :: tokens => openText true 2 first ++ (token ++ rowLines false tokens)

/-- The text of an artifact whose rows are these tokens. -/
def ScheduleCatalogArtifact.text (a : ScheduleCatalogArtifact) (tokens : List (List UInt8)) : List UInt8 :=
  [0x7b] ++ (renderFields true 1 true a.header ++ (openText true 1 false ++ (stringToken (asciiBytes "rows") ++
    (colonText true ++ ([0x5b] ++ (rowLines true tokens ++ (closeText ⟨true, !tokens.isEmpty⟩ 1 ++ [0x5d]))))) ++
    (closeText ⟨true, true⟩ 0 ++ [0x7d])))

theorem renderItems_rows (first : Bool) (rows : List Json) :
    renderItems true 2 first rows = rowLines first (rows.map rowToken) := by
  induction rows generalizing first with
  | nil => rw [List.map_nil, rowLines, renderItems]
  | cons row rows ih => rw [List.map_cons, rowLines, renderItems, ih, rowToken]

theorem renderFields_append {pretty : Bool} {depth : ℕ} : renderFields pretty depth true (field :: l ++ m) =
      renderFields pretty depth true (field :: l) ++ renderFields pretty depth false m := by
  have hrest : ∀ l : List (List UInt8 × Json), renderFields pretty depth false (l ++ m) =
      renderFields pretty depth false l ++ renderFields pretty depth false m := by
    intro l
    induction l with
    | nil => rw [List.nil_append, renderFields, List.nil_append]
    | cons field l ih =>
      obtain ⟨name, value⟩ := field
      simp only [List.cons_append, renderFields, ih, List.append_assoc]
  obtain ⟨name, value⟩ := field
  simp only [List.cons_append, renderFields, hrest, List.append_assoc]

/-- **The document holds the tokens of its rows.** -/
theorem ScheduleCatalogArtifact.document_rows (a : ScheduleCatalogArtifact) :
    a.document = a.text (a.rows.map rowToken) := by
  have hempty : a.rows.isEmpty = (a.rows.map rowToken).isEmpty := by simp
  have hobject : prettyObject 0 = true := rfl
  have harray : prettyArray 1 = true := rfl
  simp only [document, json, text, header, render, hobject, zero_add, renderFields_append]
  simp only [renderFields, render, harray, Nat.reduceAdd, renderItems_rows, hempty, List.append_assoc,
    List.append_nil, List.cons_append, List.nil_append]
  rfl

theorem encoded_eq_ok {f : EncoderState → Except EncodeError EncoderState} {c c' : List ArtifactContainer} {what : String}
    {text bytes : List UInt8} (h : Emits limit f c c' text) :
    encoded limit what (f ⟨c, []⟩) = .ok bytes ↔ text.length ≤ limit ∧ bytes = text := by
  rw [h [] (Nat.zero_le _)]
  split <;> simp_all [encoded, eq_comm]

theorem encodedRowToken_eq_ok {token : List UInt8} :
    encodedRowTokenWithLimit row limit = .ok token ↔ row.rowToken.length ≤ limit ∧ token = row.rowToken :=
  encoded_eq_ok (serialize_emits row (List.replicate 2 ⟨false, true⟩))

theorem preflight_eq_ok {index : ℕ} {u : Unit} : preflight limit row index = .ok u ↔ row.rowToken.length ≤ limit := by
  unfold preflight
  rcases htoken : encodedRowTokenWithLimit row limit with e | token
  · simp only [reduceCtorEq, false_iff]
    intro hsmall
    rw [encodedRowToken_eq_ok.2 ⟨hsmall, rfl⟩] at htoken
    cases htoken
  · simp only [true_iff]
    exact (encodedRowToken_eq_ok.1 htoken).1

theorem encode_bind_eq_ok {α β : Type} {x : Except EncodeError α} {f : α → Except EncodeError β} {b : β} :
    x >>= f = .ok b ↔ ∃ a, x = .ok a ∧ f a = .ok b := by
  cases x <;> simp [bind, Except.bind]

section

variable {rowLimit : ℕ} {first : Bool} {rows : List (Json × ℕ)} {s t : EncoderState}

/-- Rows that pass their preflight are written as the elements of an array. -/
theorem serializeRows_eq (h : ∀ row ∈ rows.map Prod.fst, row.rowToken.length ≤ rowLimit) :
    serializeRows limit rowLimit first rows s = serializeItems limit first (rows.map Prod.fst) s := by
  induction rows generalizing first s with
  | nil => rw [serializeRows, List.map_nil, serializeItems]
  | cons entry rows ih =>
    obtain ⟨row, index⟩ := entry
    rw [List.map_cons, List.forall_mem_cons] at h
    have hpre : preflight rowLimit row index = .ok () := preflight_eq_ok.2 h.1
    simp only [serializeRows, List.map_cons, serializeItems, hpre, ih h.2]
    rfl

theorem serializeRows_small (h : serializeRows limit rowLimit first rows s = .ok t) :
    ∀ row ∈ rows.map Prod.fst, row.rowToken.length ≤ rowLimit := by
  induction rows generalizing first s with
  | nil => simp
  | cons entry rows ih =>
    obtain ⟨row, index⟩ := entry
    rcases hpre : preflight rowLimit row index with e | u
    · simp [serializeRows, hpre, bind, Except.bind] at h
    · simp only [serializeRows, encode_bind_eq_ok] at h
      obtain ⟨-, -, s1, -, s2, -, s3, -, hrest⟩ := h
      rw [List.map_cons, List.forall_mem_cons]
      exact ⟨preflight_eq_ok.1 hpre, ih hrest⟩

end

theorem serializeFields_false_append (s : EncoderState) :
    serializeFields limit false (l ++ m) s = serializeFields limit false l s >>= serializeFields limit false m := by
  induction l generalizing s with
  | nil => rw [List.nil_append, serializeFields]; rfl
  | cons field l ih =>
    obtain ⟨name, value⟩ := field
    simp only [List.cons_append, serializeFields, ih, bind_assoc]

theorem serializeFields_append (s : EncoderState) : serializeFields limit true (field :: l ++ m) s =
      serializeFields limit true (field :: l) s >>= serializeFields limit false m := by
  obtain ⟨name, value⟩ := field
  simp only [List.cons_append, serializeFields, serializeFields_false_append, bind_assoc]

theorem ScheduleCatalogArtifact.serialize_eq {rowLimit : ℕ} {s : EncoderState}
    (h : ∀ row ∈ a.rows, row.rowToken.length ≤ rowLimit) : a.serialize limit rowLimit s = Schedule.serialize limit a.json s := by
  have hrows : ∀ first s, serializeRows limit rowLimit first a.rows.zipIdx s = serializeItems limit first a.rows s := by
    intro first s
    rw [serializeRows_eq (by rwa [List.zipIdx_map_fst]), List.zipIdx_map_fst]
  simp only [ScheduleCatalogArtifact.serialize, json, header, Schedule.serialize, serializeFields_append, hrows,
    bind_assoc]
  simp only [serializeFields, Schedule.serialize, bind_assoc]
  rfl

/-- **When an artifact is encoded**: exactly when every row token and the whole text fit their limits; the bytes are
the text. -/
theorem encodeArtifact_eq_ok {bytes : List UInt8} : encodeArtifact a = .ok bytes ↔
    (∀ row ∈ a.rows, row.rowToken.length ≤ maxTrustedScheduleArtifactRowBytes) ∧
      a.document.length ≤ maxTrustedScheduleArtifactBytes ∧ bytes = a.document := by
  by_cases hsmall : ∀ row ∈ a.rows, row.rowToken.length ≤ maxTrustedScheduleArtifactRowBytes
  · have hemits : Emits maxTrustedScheduleArtifactBytes (serialize maxTrustedScheduleArtifactBytes a.json) [] [] a.document :=
      serialize_emits a.json []
    have hencode : encodeArtifact a = encoded maxTrustedScheduleArtifactBytes "schedule artifact"
        (serialize maxTrustedScheduleArtifactBytes a.json ⟨[], []⟩) := by
      rw [encodeArtifact, ScheduleCatalogArtifact.serialize_eq hsmall]
      rfl
    rw [hencode, encoded_eq_ok hemits]
    exact (and_iff_right hsmall).symm
  · refine iff_of_false (fun hok => hsmall ?_) fun hok => hsmall hok.1
    unfold encodeArtifact at hok
    rcases hrun : a.serialize maxTrustedScheduleArtifactBytes maxTrustedScheduleArtifactRowBytes (atDepth 0) with e | t
    · rw [hrun] at hok
      cases e <;> simp [encoded] at hok
    · simp only [ScheduleCatalogArtifact.serialize, encode_bind_eq_ok] at hrun
      obtain ⟨_, -, _, -, _, -, _, -, _, -, _, -, _, hrows, -⟩ := hrun
      simpa using serializeRows_small hrows

end Akita.Schedule
