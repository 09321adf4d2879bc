import Haze.Msgpack.Value

/-
  The mpack reader over a memory buffer, in its default configuration: no read
  tracking, no extensions, no fill function.

  The reader is a cursor with a sticky error. Flagging an error moves the end of the
  data to the cursor, so a failed reader holds no bytes: `Reader` has one constructor
  for each case. `mpackParseTag` is the byte switch of the reader in the order of its
  source; `mpackParseTag_cons` identifies it with the format table, and the reading
  functions are then characterised by headers (`mpackReadTag_spells`,
  `mpackReadTag_cut`).
-/

open Msgpack

namespace Haze

/-! ## Reader state -/

/-- The error codes the reader can end up with. -/
inductive MpackError where
  | invalid
  | unsupported
  | type
  | tooBig
  deriving DecidableEq, Repr

/-- `mpack_reader_t`: the bytes from `data` to `end`, or the first error flagged. -/
inductive Reader where
  | ok (data : Bytes)
  | failed (error : MpackError)
  deriving DecidableEq, Repr

def mpackReaderInitData (data : Bytes) : Reader := .ok data

/-- The first error is kept. -/
def mpackReaderFlagError : Reader → MpackError → Reader
  | .ok _, error => .failed error
  | .failed first, _ => .failed first

def mpackReaderError : Reader → Option MpackError
  | .ok _ => none
  | .failed error => some error

@[simp] theorem mpackReaderError_ok (data : Bytes) : mpackReaderError (.ok data) = none := rfl

theorem mpackReaderError_eq_none {r : Reader} (h : mpackReaderError r = none) :
    ∃ data, r = .ok data := by
  cases r with
  | ok data => exact ⟨data, rfl⟩
  | failed error => cases h

def mpackReaderRemaining : Reader → Nat
  | .ok data => data.length
  | .failed _ => 0

/-! ## Tags -/

def mpackLoadU8 (p : Bytes) : UInt8 := .ofNat (beNat p)
def mpackLoadU16 (p : Bytes) : UInt16 := .ofNat (beNat p)
def mpackLoadU32 (p : Bytes) : UInt32 := .ofNat (beNat p)
def mpackLoadU64 (p : Bytes) : UInt64 := .ofNat (beNat p)
def mpackLoadI8 (p : Bytes) : Int8 := (mpackLoadU8 p).toInt8
def mpackLoadI16 (p : Bytes) : Int16 := (mpackLoadU16 p).toInt16
def mpackLoadI32 (p : Bytes) : Int32 := (mpackLoadU32 p).toInt32
def mpackLoadI64 (p : Bytes) : Int64 := (mpackLoadU64 p).toInt64

/-- `mpack_reader_ensure` for a tag of `size` bytes, then the load from the bytes
after the first. -/
def loadTag (rest : Bytes) (size : Nat) (load : Bytes → Tag) : Except MpackError (Tag × Nat) :=
  if rest.length + 1 < size then .error .invalid
  else .ok (load (rest.take (size - 1)), size)

/-- The tag at the start of the data and how many bytes it takes. -/
def mpackParseTag : Bytes → Except MpackError (Tag × Nat)
  | [] => .error .invalid
  | type :: rest =>
    if type ≤ 0x7f then .ok (.uint type.toUInt64, 1)
    else if 0xe0 ≤ type then .ok (.int type.toInt8.toInt64, 1)
    else if 0x80 ≤ type ∧ type ≤ 0x8f then .ok (.map (type &&& ~~~0xf0).toUInt32, 1)
    else if 0x90 ≤ type ∧ type ≤ 0x9f then .ok (.array (type &&& ~~~0xf0).toUInt32, 1)
    else if 0xa0 ≤ type ∧ type ≤ 0xbf then .ok (.str (type &&& ~~~0xe0).toUInt32, 1)
    else if type = 0xc0 then .ok (.nil, 1)
    else if type = 0xc2 ∨ type = 0xc3 then .ok (.bool (type &&& 1 ≠ 0), 1)
    else if type = 0xc4 then loadTag rest 2 fun p => .bin (mpackLoadU8 p).toUInt32
    else if type = 0xc5 then loadTag rest 3 fun p => .bin (mpackLoadU16 p).toUInt32
    else if type = 0xc6 then loadTag rest 5 fun p => .bin (mpackLoadU32 p)
    else if type = 0xca then loadTag rest 5 fun p => .float (mpackLoadU32 p)
    else if type = 0xcb then loadTag rest 9 fun p => .double (mpackLoadU64 p)
    else if type = 0xcc then loadTag rest 2 fun p => .uint (mpackLoadU8 p).toUInt64
    else if type = 0xcd then loadTag rest 3 fun p => .uint (mpackLoadU16 p).toUInt64
    else if type = 0xce then loadTag rest 5 fun p => .uint (mpackLoadU32 p).toUInt64
    else if type = 0xcf then loadTag rest 9 fun p => .uint (mpackLoadU64 p)
    else if type = 0xd0 then loadTag rest 2 fun p => .int (mpackLoadI8 p).toInt64
    else if type = 0xd1 then loadTag rest 3 fun p => .int (mpackLoadI16 p).toInt64
    else if type = 0xd2 then loadTag rest 5 fun p => .int (mpackLoadI32 p).toInt64
    else if type = 0xd3 then loadTag rest 9 fun p => .int (mpackLoadI64 p)
    else if type = 0xd9 then loadTag rest 2 fun p => .str (mpackLoadU8 p).toUInt32
    else if type = 0xda then loadTag rest 3 fun p => .str (mpackLoadU16 p).toUInt32
    else if type = 0xdb then loadTag rest 5 fun p => .str (mpackLoadU32 p)
    else if type = 0xdc then loadTag rest 3 fun p => .array (mpackLoadU16 p).toUInt32
    else if type = 0xdd then loadTag rest 5 fun p => .array (mpackLoadU32 p)
    else if type = 0xde then loadTag rest 3 fun p => .map (mpackLoadU16 p).toUInt32
    else if type = 0xdf then loadTag rest 5 fun p => .map (mpackLoadU32 p)
    else if type = 0xc1 then .error .invalid
    else .error .unsupported

/-- In error, or when the parse fails, the tag is nil. -/
def mpackReadTag : Reader → Tag × Reader
  | .failed error => (.nil, .failed error)
  | .ok data =>
    match mpackParseTag data with
    | .error error => (.nil, .failed error)
    | .ok (tag, count) => (tag, .ok (data.drop count))

/-- Peeking moves nothing, but it flags the error of a tag it cannot parse. -/
def mpackPeekTag : Reader → Tag × Reader
  | .failed error => (.nil, .failed error)
  | .ok data =>
    match mpackParseTag data with
    | .error error => (.nil, .failed error)
    | .ok (tag, _) => (tag, .ok data)

/-! ## Bytes -/

/-- A short read flags the error and fills the destination with zeros. -/
def mpackReadBytes : Reader → Nat → Bytes × Reader
  | .failed error, count => (List.replicate count 0, .failed error)
  | .ok data, count =>
    if count ≤ data.length then (data.take count, .ok (data.drop count))
    else (List.replicate count 0, .failed .invalid)

/-- The pointer into the buffer is `none` when it would be `NULL`. -/
def mpackReadBytesInplace : Reader → Nat → Option Bytes × Reader
  | .failed error, _ => (none, .failed error)
  | .ok data, count =>
    if count ≤ data.length then (some (data.take count), .ok (data.drop count))
    else (none, .failed .invalid)

def mpackSkipBytes : Reader → Nat → Reader
  | .failed error, _ => .failed error
  | .ok data, count => if count ≤ data.length then .ok (data.drop count) else .failed .invalid

/-! ## The switch is the format table -/

private theorem int64_ofInt_eq {x : Int64} {z : Int} (h : x.toInt = z) : x = .ofInt z := by
  rw [← h, Int64.ofInt_toInt]

/-- The wide readings of the loads, from the big-endian value of their bytes. -/
theorem mpackLoad_toUInt32 {p : Bytes} :
    (p.length = 1 → (mpackLoadU8 p).toUInt32 = .ofNat (beNat p)) ∧
      (p.length = 2 → (mpackLoadU16 p).toUInt32 = .ofNat (beNat p)) := by
  refine ⟨fun h => ?_, fun h => ?_⟩
  all_goals
    have hlt := beNat_lt p
    rw [h] at hlt
    apply UInt32.toNat_inj.mp
    simp [mpackLoadU8, mpackLoadU16]
    omega

theorem mpackLoad_toUInt64 {p : Bytes} :
    (p.length = 1 → (mpackLoadU8 p).toUInt64 = .ofNat (beNat p)) ∧
      (p.length = 2 → (mpackLoadU16 p).toUInt64 = .ofNat (beNat p)) ∧
      (p.length = 4 → (mpackLoadU32 p).toUInt64 = .ofNat (beNat p)) := by
  refine ⟨fun h => ?_, fun h => ?_, fun h => ?_⟩
  all_goals
    have hlt := beNat_lt p
    rw [h] at hlt
    apply UInt64.toNat_inj.mp
    simp [mpackLoadU8, mpackLoadU16, mpackLoadU32]
    omega

theorem mpackLoad_toInt64 {p : Bytes} :
    (p.length = 1 → (mpackLoadI8 p).toInt64 = .ofInt (beInt p)) ∧
      (p.length = 2 → (mpackLoadI16 p).toInt64 = .ofInt (beInt p)) ∧
      (p.length = 4 → (mpackLoadI32 p).toInt64 = .ofInt (beInt p)) ∧
      (p.length = 8 → mpackLoadI64 p = .ofInt (beInt p)) := by
  refine ⟨fun h => ?_, fun h => ?_, fun h => ?_, fun h => ?_⟩
  all_goals
    apply int64_ofInt_eq
    simp [mpackLoadI8, mpackLoadI16, mpackLoadI32, mpackLoadI64, mpackLoadU8, mpackLoadU16,
      mpackLoadU32, mpackLoadU64, beInt, h]

theorem loadTag_eq {rest : Bytes} {k : Nat} {load tag : Bytes → Tag}
    (h : ∀ p : Bytes, p.length = k → load p = tag p) :
    loadTag rest (k + 1) load =
      if rest.length < k then .error .invalid else .ok (tag (rest.take k), k + 1) := by
  unfold loadTag
  split_ifs with hlt hlt' <;> try omega
  · rfl
  · rw [Nat.add_sub_cancel, h _ (List.length_take_of_le (by omega))]

/-- The parse of a header whose format is looked up. -/
def parseFormat (type : UInt8) (rest : Bytes) : Option Format → Except MpackError (Tag × Nat)
  | some f =>
    if rest.length < f.extra then .error .invalid
    else .ok (f.tag (rest.take f.extra), f.extra + 1)
  | none => .error (if type = 0xc1 then .invalid else .unsupported)

private theorem ite_parseFormat {type : UInt8} {rest : Bytes} {c : Prop} [Decidable c]
    {x y : Except MpackError (Tag × Nat)} {f g : Option Format}
    (hx : c → x = parseFormat type rest f) (hy : y = parseFormat type rest g) :
    (if c then x else y) = parseFormat type rest (if c then f else g) := by
  split
  · exact hx ‹_›
  · exact hy

/-- The byte switch reads the format table. -/
theorem mpackParseTag_cons (type : UInt8) (rest : Bytes) :
    mpackParseTag (type :: rest) = parseFormat type rest (format type) := by
  have h32 := @mpackLoad_toUInt32
  have h64 := @mpackLoad_toUInt64
  have hi := @mpackLoad_toInt64
  unfold mpackParseTag format
  iterate 27
    refine ite_parseFormat (fun hc => ?_) ?_
    rotate_left
  · simp only [parseFormat]
    split_ifs <;> rfl
  all_goals first
    | rfl
    | (obtain rfl | rfl := hc) <;> rfl
    | exact loadTag_eq fun p hp => rfl
    | exact loadTag_eq fun p hp => by simp [h32, h64, hi, hp]
theorem mpackParseTag_spells {t : Tag} {h : Bytes} (hs : Spells t h) (rest : Bytes) :
    mpackParseTag (h ++ rest) = .ok (t, h.length) := by
  obtain ⟨b, body, f, rfl, hf, hlen, rfl⟩ := hs
  have hge : ¬(body ++ rest).length < f.extra := by rw [List.length_append]; omega
  rw [List.cons_append, mpackParseTag_cons, hf, parseFormat, if_neg hge, ← hlen, List.take_left,
    List.length_cons]

theorem mpackParseTag_sound {data : Bytes} {t : Tag} {n : Nat}
    (hp : mpackParseTag data = .ok (t, n)) :
    ∃ h rest, Spells t h ∧ h.length = n ∧ data = h ++ rest := by
  cases data with
  | nil => cases hp
  | cons b rest =>
      rw [mpackParseTag_cons] at hp
      cases hf : format b with
      | none => rw [hf, parseFormat] at hp; cases hp
      | some f =>
          rw [hf, parseFormat] at hp
          split at hp
          · cases hp
          · rename_i hge
            obtain ⟨rfl, rfl⟩ := Prod.mk.inj (Except.ok.inj hp)
            have hlen : (rest.take f.extra).length = f.extra := List.length_take_of_le (by omega)
            refine ⟨b :: rest.take f.extra, rest.drop f.extra, ⟨b, _, f, rfl, hf, hlen, rfl⟩,
              ?_, ?_⟩
            · rw [List.length_cons, hlen]
            · rw [List.cons_append, List.take_append_drop]

/-- A header cut short does not parse. -/
theorem mpackParseTag_cut {t : Tag} {h p : Bytes} (hs : Spells t h) (hp : p <+: h)
    (hne : p ≠ h) : mpackParseTag p = .error .invalid := by
  obtain ⟨b, body, f, rfl, hf, hlen, -⟩ := hs
  cases p with
  | nil => rfl
  | cons c q =>
      obtain ⟨rfl, hq⟩ := List.cons_prefix_cons.mp hp
      have hlt : q.length < f.extra := by
        rw [← hlen]
        exact lt_of_le_of_ne hq.length_le fun h => hne (by rw [hq.eq_of_length h])
      rw [mpackParseTag_cons, hf, parseFormat, if_pos hlt]

/-! ## Reading -/

@[simp] theorem mpackReaderFlagError_ok (data : Bytes) (e : MpackError) :
    mpackReaderFlagError (.ok data) e = .failed e := rfl

@[simp] theorem mpackReaderFlagError_failed (first e : MpackError) :
    mpackReaderFlagError (.failed first) e = .failed first := rfl

@[simp] theorem mpackReadTag_failed (e : MpackError) :
    mpackReadTag (.failed e) = (.nil, .failed e) := rfl

@[simp] theorem mpackPeekTag_failed (e : MpackError) :
    mpackPeekTag (.failed e) = (.nil, .failed e) := rfl

@[simp] theorem mpackReadBytes_failed (e : MpackError) (n : Nat) :
    mpackReadBytes (.failed e) n = (List.replicate n 0, .failed e) := rfl

theorem mpackReadTag_spells {t : Tag} {h : Bytes} (hs : Spells t h) (rest : Bytes) :
    mpackReadTag (.ok (h ++ rest)) = (t, .ok rest) := by
  simp [mpackReadTag, mpackParseTag_spells hs rest]

theorem mpackPeekTag_spells {t : Tag} {h : Bytes} (hs : Spells t h) (rest : Bytes) :
    mpackPeekTag (.ok (h ++ rest)) = (t, .ok (h ++ rest)) := by
  simp [mpackPeekTag, mpackParseTag_spells hs rest]

/-- A tag read either takes a header off the data or fails with nil. -/
theorem mpackReadTag_cases (data : Bytes) :
    (∃ t h rest, Spells t h ∧ data = h ++ rest) ∨
      ∃ e, mpackReadTag (.ok data) = (.nil, .failed e) ∧
        mpackPeekTag (.ok data) = (.nil, .failed e) := by
  cases hp : mpackParseTag data with
  | error e => exact .inr ⟨e, by simp [mpackReadTag, hp], by simp [mpackPeekTag, hp]⟩
  | ok tn =>
      obtain ⟨h, rest, hs, -, rfl⟩ := mpackParseTag_sound hp
      exact .inl ⟨_, h, rest, hs, rfl⟩

theorem mpackReadTag_cut {t : Tag} {h p : Bytes} (hs : Spells t h) (hp : p <+: h)
    (hne : p ≠ h) : mpackReadTag (.ok p) = (.nil, .failed .invalid) := by
  simp [mpackReadTag, mpackParseTag_cut hs hp hne]

/-- Reading a prefix of data that opens with a header: the header is cut short, or it is
read and the rest is a prefix again. -/
theorem mpackReadTag_cut_or_read {t : Tag} {h rest p : Bytes} (hs : Spells t h)
    (hp : p <+: h ++ rest) :
    mpackReadTag (.ok p) = (.nil, .failed .invalid) ∨
      ∃ q, q <+: rest ∧ p = h ++ q ∧ mpackReadTag (.ok p) = (t, .ok q) := by
  obtain hph | ⟨q, rfl⟩ := List.prefix_or_prefix_of_prefix hp (List.prefix_append h rest)
  · by_cases heq : p = h
    · subst heq
      refine .inr ⟨[], List.nil_prefix, by simp, ?_⟩
      simpa using mpackReadTag_spells hs []
    · exact .inl (mpackReadTag_cut hs hph heq)
  · exact .inr ⟨q, (List.prefix_append_right_inj h).mp hp, rfl, mpackReadTag_spells hs q⟩

theorem mpackReadBytesInplace_append (s rest : Bytes) :
    mpackReadBytesInplace (.ok (s ++ rest)) s.length = (some s, .ok rest) := by
  simp [mpackReadBytesInplace]

theorem mpackReadBytes_append (s rest : Bytes) :
    mpackReadBytes (.ok (s ++ rest)) s.length = (s, .ok rest) := by
  simp [mpackReadBytes]

theorem length_mpackReadBytes (r : Reader) (n : Nat) : (mpackReadBytes r n).1.length = n := by
  cases r with
  | failed e => simp
  | ok data =>
      rw [mpackReadBytes]
      split_ifs with hle
      · exact List.length_take_of_le hle
      · exact List.length_replicate

theorem mpackReadBytes_sound {data rest s : Bytes} {n : Nat}
    (hr : mpackReadBytes (.ok data) n = (s, .ok rest)) : s.length = n ∧ data = s ++ rest := by
  simp only [mpackReadBytes] at hr
  split at hr
  · rename_i hle
    simp only [Prod.mk.injEq, Reader.ok.injEq] at hr
    obtain ⟨rfl, rfl⟩ := hr
    exact ⟨List.length_take_of_le hle, (List.take_append_drop n data).symm⟩
  · simp at hr

theorem mpackReadBytesInplace_sound {data s : Bytes} {n : Nat}
    (hr : (mpackReadBytesInplace (.ok data) n).1 = some s) :
    ∃ rest, s.length = n ∧ data = s ++ rest := by
  rw [mpackReadBytesInplace] at hr
  split_ifs at hr with hle
  obtain rfl := Option.some.inj hr
  exact ⟨_, List.length_take_of_le hle, (List.take_append_drop n data).symm⟩

/-! ## What is left ahead -/

/-- `r'` is `r` after some calls: it has failed, or what lies ahead of it lay ahead of
`r`. -/
inductive Reader.Follows (r : Reader) : Reader → Prop
  | failed (error : MpackError) : Follows r (.failed error)
  | suffix {data rest : Bytes} : r = .ok data → rest <:+ data → Follows r (.ok rest)

namespace Reader.Follows

theorem refl (r : Reader) : r.Follows r := by
  cases r with
  | ok data => exact .suffix rfl List.suffix_rfl
  | failed error => exact .failed error

theorem trans {r r' r'' : Reader} (h : r.Follows r') (h' : r'.Follows r'') : r.Follows r'' := by
  obtain _ | ⟨rfl, hsuffix⟩ := h'
  · exact .failed _
  · obtain _ | ⟨rfl, hsuffix'⟩ := h
    exact .suffix rfl (hsuffix.trans hsuffix')

theorem remaining_le {r r' : Reader} (h : r.Follows r') :
    mpackReaderRemaining r' ≤ mpackReaderRemaining r := by
  obtain _ | ⟨rfl, hsuffix⟩ := h
  · exact Nat.zero_le _
  · exact hsuffix.length_le

end Reader.Follows

theorem mpackReaderFlagError_follows (r r' : Reader) (e : MpackError) :
    r.Follows (mpackReaderFlagError r' e) := by
  cases r' <;> exact .failed _

/-- A tag that is read takes bytes off the data. -/
theorem mpackReadTag_follows (r : Reader) : r.Follows (mpackReadTag r).2 ∧
    ∀ rest, (mpackReadTag r).2 = .ok rest → rest.length < mpackReaderRemaining r := by
  cases r with
  | failed e => exact ⟨.failed e, nofun⟩
  | ok data =>
      obtain ⟨t, h, rest, hs, rfl⟩ | ⟨e, he, -⟩ := mpackReadTag_cases data
      · have hpos := spells_length_pos hs
        rw [mpackReadTag_spells hs]
        refine ⟨.suffix rfl (List.suffix_append h rest), ?_⟩
        rintro _ ⟨⟩
        rw [mpackReaderRemaining, List.length_append]
        omega
      · rw [he]
        exact ⟨.failed e, nofun⟩

theorem mpackReadBytes_follows (r : Reader) (n : Nat) : r.Follows (mpackReadBytes r n).2 := by
  cases r with
  | failed e => exact .failed e
  | ok data =>
      rw [mpackReadBytes]
      split_ifs
      · exact .suffix rfl (List.drop_suffix n data)
      · exact .failed _

theorem mpackSkipBytes_follows (r : Reader) (n : Nat) : r.Follows (mpackSkipBytes r n) := by
  cases r with
  | failed e => exact .failed e
  | ok data =>
      rw [mpackSkipBytes]
      split_ifs
      · exact .suffix rfl (List.drop_suffix n data)
      · exact .failed _

/-! ## Discarding a value -/

/-- What follows a tag that is discarded: its bytes are skipped, or its elements join the
values that remain, counted in a `size_t`. -/
def mpackDiscardTag (remaining : Nat) : Tag → Reader → Nat × Reader
  | .str n, r => (remaining, mpackSkipBytes r n.toNat)
  | .bin n, r => (remaining, mpackSkipBytes r n.toNat)
  | .array n, r =>
    if 2 ^ 64 ≤ remaining + n.toNat then (remaining, mpackReaderFlagError r .tooBig)
    else (remaining + n.toNat, r)
  | .map n, r =>
    if 2 ^ 64 ≤ remaining + n.toNat * 2 then (remaining, mpackReaderFlagError r .tooBig)
    else (remaining + n.toNat * 2, r)
  | _, r => (remaining, r)

theorem mpackDiscardTag_follows (remaining : Nat) (t : Tag) (r : Reader) :
    r.Follows (mpackDiscardTag remaining t r).2 := by
  cases t <;> simp only [mpackDiscardTag]
  case str n => exact mpackSkipBytes_follows r n.toNat
  case bin n => exact mpackSkipBytes_follows r n.toNat
  case array n =>
    split_ifs
    · exact mpackReaderFlagError_follows r r _
    · exact .refl r
  case map n =>
    split_ifs
    · exact mpackReaderFlagError_follows r r _
    · exact .refl r
  all_goals exact .refl r

/-- The loop of `mpack_discard` with the given number of values remaining. -/
def mpackDiscardLoop : Nat → Reader → Reader
  | 0, r => r
  | _ + 1, .failed error => .failed error
  | remaining + 1, .ok data =>
    match _h : mpackReadTag (.ok data) with
    | (_, .failed error) => .failed error
    | (tag, .ok rest) =>
      mpackDiscardLoop (mpackDiscardTag remaining tag (.ok rest)).1
        (mpackDiscardTag remaining tag (.ok rest)).2
termination_by _ r => mpackReaderRemaining r
decreasing_by
  have hlt := (mpackReadTag_follows (.ok data)).2 rest (by rw [_h])
  exact lt_of_le_of_lt (mpackDiscardTag_follows remaining tag (.ok rest)).remaining_le hlt

def mpackDiscard (r : Reader) : Reader := mpackDiscardLoop 1 r

end Haze
