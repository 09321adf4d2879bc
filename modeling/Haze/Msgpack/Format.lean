import Haze.Msgpack.BigEndian

/-
  The MessagePack first-byte table.

  Every MessagePack value opens with a header: one byte that selects a format, then
  the fixed number of bytes the format asks for. `format` is the table, without the
  extension formats, and `Spells t h` says that the bytes `h` are a header for the
  tag `t`. Several headers can spell one tag; a header spells one tag only
  (`spells_unique`), and no header is a strict prefix of another
  (`spells_prefix_free`). `shape_of_spells` lists the headers each kind of tag has.
-/

namespace Msgpack

/-! ## Tags -/

/-- What a header says: a scalar with its value, or a compound with its count. -/
inductive Tag where
  | nil
  | bool (b : Bool)
  | uint (n : UInt64)
  | int (n : Int64)
  | float (bits : UInt32)
  | double (bits : UInt64)
  | str (len : UInt32)
  | bin (len : UInt32)
  | array (count : UInt32)
  | map (count : UInt32)
  deriving DecidableEq, Repr

/-- The tag of the same value, with a non-negative integer taken as unsigned. -/
def Tag.norm : Tag → Tag
  | .int n => if 0 ≤ n then .uint n.toUInt64 else .int n
  | t => t

/-! ## The table -/

/-- A format: how many bytes follow the first one, and the tag they make. -/
structure Format where
  extra : Nat
  tag : Bytes → Tag

/-- A header of one byte. -/
def Format.single (t : Tag) : Format := ⟨0, fun _ => t⟩

/-- The format a first byte selects. The byte `0xc1` is reserved, and the extension
formats `0xc7`–`0xc9` and `0xd4`–`0xd8` are not part of this table. -/
def format (b : UInt8) : Option Format :=
  if b ≤ 0x7f then some (.single (.uint b.toUInt64))
  else if 0xe0 ≤ b then some (.single (.int b.toInt8.toInt64))
  else if 0x80 ≤ b ∧ b ≤ 0x8f then some (.single (.map (b &&& 0x0f).toUInt32))
  else if 0x90 ≤ b ∧ b ≤ 0x9f then some (.single (.array (b &&& 0x0f).toUInt32))
  else if 0xa0 ≤ b ∧ b ≤ 0xbf then some (.single (.str (b &&& 0x1f).toUInt32))
  else if b = 0xc0 then some (.single .nil)
  else if b = 0xc2 ∨ b = 0xc3 then some (.single (.bool (b = 0xc3)))
  else if b = 0xc4 then some ⟨1, fun p => .bin (.ofNat (beNat p))⟩
  else if b = 0xc5 then some ⟨2, fun p => .bin (.ofNat (beNat p))⟩
  else if b = 0xc6 then some ⟨4, fun p => .bin (.ofNat (beNat p))⟩
  else if b = 0xca then some ⟨4, fun p => .float (.ofNat (beNat p))⟩
  else if b = 0xcb then some ⟨8, fun p => .double (.ofNat (beNat p))⟩
  else if b = 0xcc then some ⟨1, fun p => .uint (.ofNat (beNat p))⟩
  else if b = 0xcd then some ⟨2, fun p => .uint (.ofNat (beNat p))⟩
  else if b = 0xce then some ⟨4, fun p => .uint (.ofNat (beNat p))⟩
  else if b = 0xcf then some ⟨8, fun p => .uint (.ofNat (beNat p))⟩
  else if b = 0xd0 then some ⟨1, fun p => .int (.ofInt (beInt p))⟩
  else if b = 0xd1 then some ⟨2, fun p => .int (.ofInt (beInt p))⟩
  else if b = 0xd2 then some ⟨4, fun p => .int (.ofInt (beInt p))⟩
  else if b = 0xd3 then some ⟨8, fun p => .int (.ofInt (beInt p))⟩
  else if b = 0xd9 then some ⟨1, fun p => .str (.ofNat (beNat p))⟩
  else if b = 0xda then some ⟨2, fun p => .str (.ofNat (beNat p))⟩
  else if b = 0xdb then some ⟨4, fun p => .str (.ofNat (beNat p))⟩
  else if b = 0xdc then some ⟨2, fun p => .array (.ofNat (beNat p))⟩
  else if b = 0xdd then some ⟨4, fun p => .array (.ofNat (beNat p))⟩
  else if b = 0xde then some ⟨2, fun p => .map (.ofNat (beNat p))⟩
  else if b = 0xdf then some ⟨4, fun p => .map (.ofNat (beNat p))⟩
  else none

theorem format_fixuint {b : UInt8} (hb : b ≤ 0x7f) :
    format b = some (.single (.uint b.toUInt64)) := by
  rw [format, if_pos hb]

theorem format_fixint {b : UInt8} (hb : 0xe0 ≤ b) :
    format b = some (.single (.int b.toInt8.toInt64)) := by
  have h1 : ¬b ≤ 0x7f := by grind
  rw [format, if_neg h1, if_pos hb]

theorem format_fixmap {b : UInt8} (hb : 0x80 ≤ b ∧ b ≤ 0x8f) :
    format b = some (.single (.map (b &&& 0x0f).toUInt32)) := by
  have h1 : ¬b ≤ 0x7f := by grind
  have h2 : ¬0xe0 ≤ b := by grind
  rw [format, if_neg h1, if_neg h2, if_pos hb]

theorem format_fixarray {b : UInt8} (hb : 0x90 ≤ b ∧ b ≤ 0x9f) :
    format b = some (.single (.array (b &&& 0x0f).toUInt32)) := by
  have h1 : ¬b ≤ 0x7f := by grind
  have h2 : ¬0xe0 ≤ b := by grind
  have h3 : ¬(0x80 ≤ b ∧ b ≤ 0x8f) := by grind
  rw [format, if_neg h1, if_neg h2, if_neg h3, if_pos hb]

theorem format_fixstr {b : UInt8} (hb : 0xa0 ≤ b ∧ b ≤ 0xbf) :
    format b = some (.single (.str (b &&& 0x1f).toUInt32)) := by
  have h1 : ¬b ≤ 0x7f := by grind
  have h2 : ¬0xe0 ≤ b := by grind
  have h3 : ¬(0x80 ≤ b ∧ b ≤ 0x8f) := by grind
  have h4 : ¬(0x90 ≤ b ∧ b ≤ 0x9f) := by grind
  rw [format, if_neg h1, if_neg h2, if_neg h3, if_neg h4, if_pos hb]

/-- One line of the table. -/
theorem of_ite_format {c : Prop} [Decidable c] {f g : Format} {rest : Option Format}
    (h : (if c then some g else rest) = some f) : g = f ∨ rest = some f := by
  by_cases hc : c
  · exact .inl (Option.some.inj ((if_pos hc).symm.trans h))
  · exact .inr ((if_neg hc).symm.trans h)

theorem format_bin {b : UInt8} {f : Format} {body : Bytes} {n : UInt32} (hf : format b = some f)
    (htag : f.tag body = .bin n) : b = 0xc4 ∨ b = 0xc5 ∨ b = 0xc6 := by
  by_contra hne
  obtain ⟨h8, h16, h32⟩ : b ≠ 0xc4 ∧ b ≠ 0xc5 ∧ b ≠ 0xc6 := by simpa using hne
  rw [format] at hf
  -- the lines in front of those of the binaries, and then those behind them
  repeat
    obtain rfl | hf := of_ite_format hf
    · cases htag
  rw [if_neg h8, if_neg h16, if_neg h32] at hf
  repeat
    obtain rfl | hf := of_ite_format hf
    · cases htag
  cases hf

/-! ## Headers -/

/-- The bytes `h` are a header for the tag `t`. -/
def Spells (t : Tag) (h : Bytes) : Prop :=
  ∃ b body f, h = b :: body ∧ format b = some f ∧ body.length = f.extra ∧ f.tag body = t

theorem spells_ne_nil {t : Tag} {h : Bytes} (hs : Spells t h) : h ≠ [] := by
  obtain ⟨b, body, f, rfl, -⟩ := hs
  exact List.cons_ne_nil b body

theorem spells_length_pos {t : Tag} {h : Bytes} (hs : Spells t h) : 0 < h.length :=
  List.length_pos_iff.mpr (spells_ne_nil hs)

theorem spells_unique {t u : Tag} {h : Bytes} (ht : Spells t h) (hu : Spells u h) : t = u := by
  obtain ⟨b, body, f, rfl, hf, -, rfl⟩ := ht
  obtain ⟨b', body', f', heq, hf', -, rfl⟩ := hu
  obtain ⟨rfl, rfl⟩ := List.cons.inj heq
  rw [hf] at hf'
  rw [Option.some.inj hf']

/-- Two headers at the start of one byte string are the same header. -/
theorem spells_prefix_free {t u : Tag} {h k rest rest' : Bytes} (ht : Spells t h)
    (hu : Spells u k) (heq : h ++ rest = k ++ rest') : h = k ∧ rest = rest' := by
  obtain ⟨b, body, f, rfl, hf, hlen, -⟩ := ht
  obtain ⟨b', body', f', rfl, hf', hlen', -⟩ := hu
  rw [List.cons_append, List.cons_append] at heq
  obtain ⟨rfl, htail⟩ := List.cons.inj heq
  rw [hf] at hf'
  obtain rfl := Option.some.inj hf'
  obtain ⟨rfl, rfl⟩ := List.append_inj htail (hlen.trans hlen'.symm)
  exact ⟨rfl, rfl⟩

/-! ## Headers by kind -/

/-- A header of `c.2` bytes after the byte `c.1`, for some `c` of the list. -/
def Wide (formats : List (UInt8 × Nat)) (P : Bytes → Prop) (h : Bytes) : Prop :=
  ∃ c ∈ formats, ∃ body, h = c.1 :: body ∧ body.length = c.2 ∧ P body

/-- The headers of a tag, by its kind. -/
def Shape (h : Bytes) : Tag → Prop
  | .nil => h = [0xc0]
  | .bool v => h = [if v then 0xc3 else 0xc2]
  | .uint n =>
    (∃ b : UInt8, b ≤ 0x7f ∧ h = [b] ∧ n = b.toUInt64) ∨
      Wide [(0xcc, 1), (0xcd, 2), (0xce, 4), (0xcf, 8)] (fun p => n = .ofNat (beNat p)) h
  | .int n =>
    (∃ b : UInt8, 0xe0 ≤ b ∧ h = [b] ∧ n = b.toInt8.toInt64) ∨
      Wide [(0xd0, 1), (0xd1, 2), (0xd2, 4), (0xd3, 8)] (fun p => n = .ofInt (beInt p)) h
  | .float n => Wide [(0xca, 4)] (fun p => n = .ofNat (beNat p)) h
  | .double n => Wide [(0xcb, 8)] (fun p => n = .ofNat (beNat p)) h
  | .str n =>
    (∃ b : UInt8, (0xa0 ≤ b ∧ b ≤ 0xbf) ∧ h = [b] ∧ n = (b &&& 0x1f).toUInt32) ∨
      Wide [(0xd9, 1), (0xda, 2), (0xdb, 4)] (fun p => n = .ofNat (beNat p)) h
  | .bin n => Wide [(0xc4, 1), (0xc5, 2), (0xc6, 4)] (fun p => n = .ofNat (beNat p)) h
  | .array n =>
    (∃ b : UInt8, (0x90 ≤ b ∧ b ≤ 0x9f) ∧ h = [b] ∧ n = (b &&& 0x0f).toUInt32) ∨
      Wide [(0xdc, 2), (0xdd, 4)] (fun p => n = .ofNat (beNat p)) h
  | .map n =>
    (∃ b : UInt8, (0x80 ≤ b ∧ b ≤ 0x8f) ∧ h = [b] ∧ n = (b &&& 0x0f).toUInt32) ∨
      Wide [(0xde, 2), (0xdf, 4)] (fun p => n = .ofNat (beNat p)) h

private theorem of_ite_eq_some {α : Type} {c : Prop} [Decidable c] {x y : α} {o : Option α}
    (h : (if c then some x else o) = some y) : (c ∧ x = y) ∨ o = some y := by
  split at h
  · exact .inl ⟨‹c›, Option.some.inj h⟩
  · exact .inr h

theorem shape_of_spells {t : Tag} {h : Bytes} (hs : Spells t h) : Shape h t := by
  obtain ⟨b, body, f, rfl, hf, hlen, rfl⟩ := hs
  unfold format at hf
  iterate 27
    obtain ⟨hc, rfl⟩ | hf := of_ite_eq_some hf
    rotate_left
  · cases hf
  all_goals simp only [Format.single, List.length_eq_zero_iff] at hlen
  all_goals
    first
    | subst hlen; exact .inl ⟨b, hc, rfl, rfl⟩
    | subst hlen; (obtain rfl | rfl := hc) <;> rfl
    | subst hc; exact .inr ⟨(_, _), by simp, body, rfl, hlen, rfl⟩
    | subst hc; exact ⟨(_, _), by simp, body, rfl, hlen, rfl⟩

end Msgpack
