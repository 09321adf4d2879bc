import Haze.Proto.ResponseFrame

/-
  When `ResponseUnmarshal` keeps the error and the result of a frame apart.

  A response comes back from every well-formed frame, unless a string overflows its
  allocation. The error is told from success, and the result is decoded from its own
  bytes, exactly when the error is not a map and has no map with entries inside it
  (`responseUnmarshal_separates_iff`).
-/

open Msgpack

namespace Haze

/-! ## The two reads -/

/-- Nothing inside the value is skipped or overflows. -/
def ReadWhole (v : Value) : Prop := ∀ u ∈ v.preorder, Entered u ∧ ¬Overlong u

theorem readWhole_iff {v : Value} : ReadWhole v ↔
    (∀ kvs, .map kvs ∈ v.preorder → kvs = []) ∧ ∀ u ∈ v.preorder, ¬Overlong u := by
  simp only [ReadWhole, entered_iff]
  exact ⟨fun h => ⟨fun kvs hkvs => (h _ hkvs).1 kvs rfl, fun u hu => (h u hu).2⟩,
    fun h u hu => ⟨fun kvs heq => h.1 kvs (heq ▸ hu), h.2 u hu⟩⟩

/-- The error is read from the bytes of the last two elements. -/
theorem responseFrame_reads {msgid : UInt32} {e r : Value} {bE bR f : Bytes}
    (hf : ResponseFrame msgid e r bE bR f) :
    Reads 1 [e, r] (bE ++ bR) (ReadFrom e)
      (objectUnmarshalMPack (f.length + 1) (.ok (bE ++ bR))) := by
  have hlen := responseFrame_length hf
  obtain ⟨_, _, _, _, _, -, -, -, hbE, hbR, -⟩ := hf
  exact objectUnmarshalMPack_reads _ (encodesAll_append hbE hbR) hlen

theorem preorderAll_pair (e r : Value) : preorderAll [e, r] = e.preorder ++ r.preorder := by
  rw [preorderAll, preorderAll_singleton]

/-- A value that is read whole takes its own nodes. -/
theorem touched_of_readWhole {v : Value} (hv : ReadWhole v) (ns : List Value) :
    touched 1 (v.preorder ++ ns) = v.preorder := by
  rw [← preorderAll_singleton]
  refine @touched_preorderAll [v] (fun u hu => ?_) ns
  rw [preorderAll_singleton] at hu
  exact (hv u hu).1

theorem touched_append_skim (k : Nat) (ns : List Value) : touched k ns ++ skim k ns = ns := by
  induction ns generalizing k with
  | nil => cases k <;> simp [touched, skim]
  | cons v ns ih => cases k <;> simp [touched, skim, ih]

theorem skim_of_readWhole {v : Value} (hv : ReadWhole v) (ns : List Value) :
    skim 1 (v.preorder ++ ns) = ns := by
  have happend := touched_append_skim 1 (v.preorder ++ ns)
  rw [touched_of_readWhole hv] at happend
  exact List.append_cancel_left happend

/-- A reader that stands in front of the result has read the error whole. -/
theorem readWhole_of_reads {e r : Value} {bR : Bytes} {left : List Value}
    (hbR : Encodes r bR) (hleft : EncodesAll left bR)
    (hpre : preorderAll left = skim 1 (e.preorder ++ r.preorder))
    (hsafe : ∀ u ∈ touched 1 (e.preorder ++ r.preorder), ¬Overlong u) : ReadWhole e := by
  have hlen := nodes_length_unique (nodes_of_encodesAll hleft) (nodes_of_encodesAll hbR)
  rw [hpre, preorderAll_singleton] at hlen
  have hentered : ∀ u ∈ e.preorder, Entered u := by
    by_contra hnot
    push Not at hnot
    have hlt := @length_skim_lt 1 [e] r.preorder le_rfl
      (.inr (by rwa [preorderAll_singleton]))
    rw [preorderAll_singleton] at hlt
    omega
  have htouched := @touched_preorderAll [e] (by rwa [preorderAll_singleton]) r.preorder
  rw [preorderAll_singleton, List.length_singleton] at htouched
  rw [htouched] at hsafe
  exact fun u hu => ⟨hentered u hu, hsafe u hu⟩

/-! ## Runs over a frame -/

/-- A run over a frame that ends in a response; `rest` is what lies ahead of the reader
between the two reads. -/
structure FrameRead (msgid : UInt32) (e r : Value) (bE bR f rest : Bytes)
    (error result : Option Object) (reader : Reader) : Prop where
  safeError : ∀ u ∈ touched 1 (e.preorder ++ r.preorder), ¬Overlong u
  safeResult : ∀ u ∈ touched 1 (skim 1 (e.preorder ++ r.preorder)), ¬Overlong u
  readFrom : ReadFrom e error
  position : ∃ left taken, EncodesAll left rest ∧
    preorderAll left = skim 1 (e.preorder ++ r.preorder) ∧
    Nodes (touched 1 (e.preorder ++ r.preorder)) taken ∧ bE ++ bR = taken ++ rest
  readError : responseUnmarshalError f =
    .ok (some ({ headerResponse msgid with error := dropNil error }, .ok rest))
  readResult : objectUnmarshalMPack (f.length + 1) (.ok rest) = .ok (result, reader)
  unmarshal : responseUnmarshal f =
    .ok (some { headerResponse msgid with error := dropNil error, result := dropNil result })

/-- A run over a frame ends in a response unless one of the reads reaches an overlong
string. -/
theorem responseUnmarshal_cases {msgid : UInt32} {e r : Value} {bE bR f : Bytes}
    (hf : ResponseFrame msgid e r bE bR f) :
    (responseUnmarshal f = .error .heapOverflow ∧
      ((∃ u ∈ touched 1 (e.preorder ++ r.preorder), Overlong u) ∨
        ∃ u ∈ touched 1 (skim 1 (e.preorder ++ r.preorder)), Overlong u)) ∨
    ∃ rest error result reader, FrameRead msgid e r bE bR f rest error result reader := by
  have hlen := responseFrame_length hf
  have hreads := responseFrame_reads hf
  rw [Reads, preorderAll_pair] at hreads
  obtain ⟨hover, hread⟩ | ⟨hsafe, error, left, taken, rest, hread, herror, hleft, hpre, hcount,
    hnodes, hsplit⟩ := hreads
  · exact .inl ⟨responseUnmarshal_overflow hf hread, .inl hover⟩
  · obtain ⟨hread₁, hrun⟩ := responseUnmarshal_frame hf hread
    cases left with
    | nil => simp at hcount
    | cons v left =>
        have hrest : rest.length < f.length + 1 := by
          rw [hsplit, List.length_append] at hlen
          omega
        obtain ⟨hover, hread₂⟩ | ⟨hsafe', result, _, _, rest', hread₂, -⟩ :=
          objectUnmarshalMPack_reads _ hleft hrest
        · rw [hread₂] at hrun
          exact .inl ⟨hrun, .inr (hpre ▸ hover)⟩
        · rw [hread₂] at hrun
          exact .inr ⟨rest, error, result, .ok rest', hsafe, hpre ▸ hsafe', herror,
            ⟨_, taken, hleft, hpre, hnodes, hsplit⟩, hread₁, hread₂, hrun⟩

/-! ## Errors and results -/

theorem dropNil_ne_none_iff {v : Value} {obj : Option Object} (hobj : ReadFrom v obj) :
    dropNil obj ≠ none ↔ v ≠ .nil ∧ ∀ kvs, v ≠ .map kvs := by
  obtain ⟨o, rfl, ho⟩ := hobj
  have hdrop : dropNil (some o) ≠ none ↔ o ≠ .nil := by cases o <;> simp [dropNil]
  rw [hdrop, ne_eq, ho, not_or, not_exists]

/-- A well-formed frame gives a response whose error is present exactly when the error
on the wire is not nil, and whose result comes from the bytes of the result, exactly when
the error is no map, every map inside it is empty, and the decoder reaches no string of
`2 ^ 32 - 1` bytes. -/
theorem responseUnmarshal_separates_iff {msgid : UInt32} {e r : Value} {bE bR f : Bytes}
    (hf : ResponseFrame msgid e r bE bR f) :
    (responseUnmarshal f = .ok none ∨
      ∃ response read result reader, responseUnmarshal f = .ok (some response) ∧
        (response.error ≠ none ↔ e ≠ .nil) ∧
        responseUnmarshalError f = .ok (some (read, .ok bR)) ∧
        objectUnmarshalMPack (f.length + 1) (.ok bR) = .ok (result, reader) ∧
        response.result = dropNil result) ↔
    (∀ kvs, e ≠ .map kvs) ∧ (∀ kvs, .map kvs ∈ e.preorder → kvs = []) ∧
      (∀ u ∈ e.preorder, ¬Overlong u) ∧ ∀ u ∈ touched 1 r.preorder, ¬Overlong u := by
  obtain ⟨hbE, hbR⟩ := responseFrame_encodes hf
  rw [← and_assoc (a := ∀ kvs, _ ∈ _ → _), ← readWhole_iff]
  obtain ⟨hrun, hover⟩ | ⟨rest, error, result, reader, hread⟩ := responseUnmarshal_cases hf
  · constructor
    · rintro (hnone | ⟨_, _, _, _, hsome, -⟩)
      · simp [hrun] at hnone
      · simp [hrun] at hsome
    · -- both reads take their own nodes, so an overlong string is in one of them
      rintro ⟨-, hwhole, hsafe⟩
      rw [touched_of_readWhole hwhole, skim_of_readWhole hwhole] at hover
      obtain ⟨u, hu, hlong⟩ | ⟨u, hu, hlong⟩ := hover
      · exact absurd hlong (hwhole u hu).2
      · exact absurd hlong (hsafe u hu)
  · obtain ⟨left, taken, hleft, hpre, hnodes, hsplit⟩ := hread.position
    constructor
    · rintro (hnone | ⟨response, read, _, _, hsome, herror, hposition, -⟩)
      · simp [hread.unmarshal] at hnone
      · rw [hread.unmarshal] at hsome
        rw [hread.readError] at hposition
        obtain rfl : _ = response := Option.some.inj (Except.ok.inj hsome)
        obtain ⟨-, rfl⟩ : _ ∧ rest = bR := by simpa using hposition
        have hwhole := readWhole_of_reads hbR hleft hpre hread.safeError
        have hsafe := hread.safeResult
        rw [skim_of_readWhole hwhole] at hsafe
        refine ⟨fun kvs heq => ?_, hwhole, hsafe⟩
        have hnotNil : e ≠ .nil := by simp [heq]
        exact ((dropNil_ne_none_iff hread.readFrom).mp (herror.mpr hnotNil)).2 kvs heq
    · rintro ⟨hmap, hwhole, hsafe⟩
      rw [touched_of_readWhole hwhole] at hnodes
      have hbE := nodes_of_encodesAll hbE
      rw [preorderAll_singleton] at hbE
      obtain ⟨-, rfl⟩ := nodes_unique hbE hnodes rfl hsplit
      refine .inr ⟨_, _, result, reader, hread.unmarshal, ?_, hread.readError,
        hread.readResult, rfl⟩
      simp [dropNil_ne_none_iff hread.readFrom, hmap]

/-- The frame `[1, 7, "e", nil]` is read apart. -/
theorem responseUnmarshal_separates_string :
    responseUnmarshal [0x94, 0x01, 0x07, 0xa1, 0x65, 0xc0] = .ok none ∨
      ∃ response read result reader,
        responseUnmarshal [0x94, 0x01, 0x07, 0xa1, 0x65, 0xc0] = .ok (some response) ∧
        (response.error ≠ none ↔ Value.str [0x65] ≠ .nil) ∧
        responseUnmarshalError [0x94, 0x01, 0x07, 0xa1, 0x65, 0xc0] =
          .ok (some (read, .ok [0xc0])) ∧
        objectUnmarshalMPack 7 (.ok [0xc0]) = .ok (result, reader) ∧
        response.result = dropNil result :=
  (responseUnmarshal_separates_iff
    (@responseFrame_encode 7 (.str [0x65]) .nil (Value.fits_of_scalar rfl (by decide))
      (Value.fits_of_scalar rfl (by decide)))).mpr
    ⟨by simp [Value.norm], by simp [Value.norm, Value.preorder],
      by simp [Value.norm, Value.preorder, Overlong],
      by simp [Value.norm, Value.preorder, touched, arity, Overlong]⟩

/-- The error of `[1, 7, {"a": 1}, nil]` is dropped, and its key becomes the result. -/
theorem responseUnmarshal_confuses_map :
    ¬∀ (msgid : UInt32) (e r : Value) (bE bR f : Bytes), ResponseFrame msgid e r bE bR f →
      responseUnmarshal f = .ok none ∨
        ∃ response read result reader, responseUnmarshal f = .ok (some response) ∧
          (response.error ≠ none ↔ e ≠ .nil) ∧
          responseUnmarshalError f = .ok (some (read, .ok bR)) ∧
          objectUnmarshalMPack (f.length + 1) (.ok bR) = .ok (result, reader) ∧
          response.result = dropNil result := by
  intro hall
  have hkey : (Value.str [0x61]).Fits := Value.fits_of_scalar rfl (by decide)
  have hmap : (Value.map [(.str [0x61], .uint 1)]).Fits :=
    Value.fits_iff.mpr ⟨by decide, by simpa [Value.children] using hkey⟩
  have hframe := @responseFrame_encode 7 _ .nil hmap (Value.fits_of_scalar rfl (by decide))
  have hrun : responseUnmarshal [0x94, 0x01, 0x07, 0x81, 0xa1, 0x61, 0x01, 0xc0] =
      .ok (some { headerResponse 7 with result := some (.str (some (.ofBytes [0x61]))) }) := rfl
  obtain hnone | ⟨response, _, _, _, hsome, herror, -⟩ := hall _ _ _ _ _ _ hframe
  · cases hrun.symm.trans hnone
  · obtain rfl : _ = response := Option.some.inj (Except.ok.inj (hrun.symm.trans hsome))
    simp [headerResponse, Value.norm] at herror

end Haze
