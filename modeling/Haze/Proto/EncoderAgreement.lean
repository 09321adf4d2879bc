import Haze.Proto.NotificationRoundTrip

/-
  One value, two encoders.

  `objectMarshalMPack` writes an object into a request or a response, and
  `notificationWriteObject` writes it into a notification. They guard against different
  things: the first takes a buffer without data for nothing and casts every length, the
  second asks for a pointer and refuses a length that does not fit.

  `Reveals` says what the bytes of the second tell about those of the first, and it goes
  through arrays (`notificationWriteElements_reveals`). The encoders agree on a tree of
  objects when it holds no empty binary and every length fits 32 bits, and only then
  (`notificationWriteObject_agrees_iff`).
-/

open Msgpack

namespace Haze

namespace Object

/-- The objects of the constructors, maps apart: a binary is one that `RawBufferNew` made. -/
def Built : Object → Prop
  | .und | .str none | .bin none | .array none | .map _ => False
  | .bin (some b) => ∃ data, b = rawBufferNew data
  | _ => True

/-- A binary holds bytes, and lengths fit 32 bits. -/
def Alike (o : Object) : Prop := o.Carried ∧ o.Short (2 ^ 32)

end Object

theorem Writer.put_inj {w : Writer} {bs cs : Bytes} (h : w.put bs = w.put cs) : bs = cs :=
  List.append_cancel_left (congrArg Writer.written h)

/-! ## Bytes compared -/

/-- A run that sent some bytes and was accepted or not reveals `P` against `other`: when
the two messages go on to be the same, it was accepted, the messages still agree from here
and `P` holds. A run that was not accepted is not gone on with. -/
def Reveals (accepted : Bool) (sent other : Bytes) (P : Prop) : Prop :=
  ∀ rest rest', (accepted = false → rest = []) → sent ++ rest = other ++ rest' →
    accepted = true ∧ rest = rest' ∧ P

theorem reveals_same {bs : Bytes} {P : Prop} (hP : P) : Reveals true bs bs P := by
  intro rest rest' _ heq
  exact ⟨rfl, List.append_cancel_left heq, hP⟩

/-- Nothing was sent where the other encoder sends a header. -/
theorem reveals_refused {other : Bytes} {P : Prop} (hother : other ≠ []) :
    Reveals false [] other P := by
  intro rest rest' hrest heq
  rw [hrest rfl, List.append_nil] at heq
  exact absurd (List.append_eq_nil_iff.mp heq.symm).1 hother

theorem Reveals.cons {accepted : Bool} {bs sent other : Bytes} {P Q : Prop}
    (h : Reveals accepted sent other P) (hQ : P → Q) :
    Reveals accepted (bs ++ sent) (bs ++ other) Q := by
  intro rest rest' hrest heq
  rw [List.append_assoc, List.append_assoc] at heq
  obtain ⟨haccepted, hrests, hP⟩ := h rest rest' hrest (List.append_cancel_left heq)
  exact ⟨haccepted, hrests, hQ hP⟩

/-- The encoding of a value is not empty. -/
theorem encode_ne_nil (v : Value) : encode v ≠ [] := by
  rw [encode_eq]
  have hheader : header v.tag ≠ [] := spells_ne_nil (spells_header v.tag)
  exact List.append_ne_nil_of_left_ne_nil (List.append_ne_nil_of_left_ne_nil hheader _) _

/-! ## Objects -/

/-- A tree both encoders take whole. -/
theorem notificationWriteObject_alike {o : Object} (ho : o.Everywhere Object.Alike) {w : Writer}
    (hw : w.error = none) :
    notificationWriteObject w o = (true, w.put (encode o.wireValue)) := by
  rw [Object.wireValue_eq_toValue le_rfl ho]
  exact notificationWriteObject_eq
    (ho.mono fun x hx => ⟨Object.stands_of_carried hx.1, hx.2⟩) hw

/-- An empty binary is a header of its own here, and nil there. -/
theorem writeEmptyBin_reveals {data : Option Bytes} (hempty : (rawBufferNew data).bytes = [])
    (P : Prop) {w : Writer} (hw : w.error = none) :
    ∃ accepted sent,
      notificationWriteObject w (.bin (some (rawBufferNew data))) = (accepted, w.put sent) ∧
      Reveals accepted sent (encode (Object.bin (some (rawBufferNew data))).wireValue) P := by
  have hnull : rawBufferNew data = ⟨none⟩ := by
    obtain _ | _ | _ := data
    · rfl
    · rfl
    · exact absurd hempty (List.cons_ne_nil _ _)
  refine ⟨true, [0xc4, 0x00], ?_, ?_⟩
  · rw [hnull, notificationWriteObject, if_neg (by decide), mpackWriteBin_eq]
    exact checked_put hw _
  · intro rest rest' _ heq
    rw [hnull] at heq
    cases heq

theorem notificationWriteElements_reveals {xs : List Object}
    (h : ∀ x ∈ xs, ∀ w : Writer, w.error = none →
      ∃ accepted sent, notificationWriteObject w x = (accepted, w.put sent) ∧
        Reveals accepted sent (encode x.wireValue) (x.Everywhere Object.Alike))
    {w : Writer} (hw : w.error = none) :
    ∃ accepted sent, notificationWriteElements w xs = (accepted, w.put sent) ∧
      Reveals accepted sent (encodeAll (xs.map Object.wireValue))
        (∀ x ∈ xs, x.Everywhere Object.Alike) := by
  induction xs generalizing w with
  | nil =>
      refine ⟨true, [], by simp [notificationWriteElements], ?_⟩
      exact reveals_same (List.forall_mem_nil _)
  | cons x xs ih =>
      obtain ⟨hx, hxs⟩ := List.forall_mem_cons.mp h
      obtain ⟨accepted, sent, hwrite, hreveals⟩ := hx w hw
      rw [List.map_cons, encodeAll_cons]
      cases accepted with
      | false =>
          refine ⟨false, sent, by rw [notificationWriteElements, hwrite], ?_⟩
          intro rest rest' hrest heq
          rw [List.append_assoc] at heq
          -- the refusal ended the message, so the bytes of this object give it away
          exact absurd (hreveals rest _ hrest heq).1 Bool.false_ne_true
      | true =>
          obtain ⟨accepted, sents, hwrites, hrevealss⟩ :=
            ih hxs (w := w.put sent) ((Writer.error_put _ _).trans hw)
          refine ⟨accepted, sent ++ sents, ?_, ?_⟩
          · rw [notificationWriteElements, hwrite]
            simp only
            rw [hwrites, Writer.put_put]
          · intro rest rest' hrest heq
            rw [List.append_assoc, List.append_assoc] at heq
            obtain ⟨-, htail, halike⟩ := hreveals _ _ (by simp) heq
            obtain ⟨haccepted, hrests, halikes⟩ := hrevealss rest rest' hrest htail
            exact ⟨haccepted, hrests, List.forall_mem_cons.mpr ⟨halike, halikes⟩⟩

/-- The bytes of the notification writer tell whether the encoders agree on an object. -/
theorem notificationWriteObject_reveals {o : Object} (ho : o.Everywhere Object.Built)
    {w : Writer} (hw : w.error = none) :
    ∃ accepted sent, notificationWriteObject w o = (accepted, w.put sent) ∧
      Reveals accepted sent (encode o.wireValue) (o.Everywhere Object.Alike) := by
  induction ho generalizing w with
  | @intro o hbuilt _ ih =>
      by_cases halike : o.Everywhere Object.Alike
      · exact ⟨true, _, notificationWriteObject_alike halike hw, reveals_same halike⟩
      cases o with
      | str s =>
          cases s with
          | none => exact hbuilt.elim
          | some s =>
              have hlong : ¬s.strlen < 2 ^ 32 := fun hlen =>
                halike (.leaf ⟨trivial, hlen⟩ rfl)
              refine ⟨false, [], ?_, reveals_refused (encode_ne_nil _)⟩
              rw [notificationWriteObject, if_pos (by omega), Writer.put_nil]
      | bin b =>
          cases b with
          | none => exact hbuilt.elim
          | some b =>
              obtain ⟨data, rfl⟩ := hbuilt
              by_cases hempty : (rawBufferNew data).bytes = []
              · exact writeEmptyBin_reveals hempty _ hw
              · have hlong : ¬(rawBufferNew data).bytes.length < 2 ^ 32 := fun hlen =>
                  halike (.leaf ⟨hempty, hlen⟩ rfl)
                have hbuf : rawBufferLen (rawBufferNew data) = (rawBufferNew data).bytes.length :=
                  rfl
                refine ⟨false, [], ?_, reveals_refused (encode_ne_nil _)⟩
                rw [notificationWriteObject, hbuf, if_pos (by omega), Writer.put_nil]
      | array xs =>
          cases xs with
          | none => exact hbuilt.elim
          | some xs =>
              by_cases hlen : xs.length < 2 ^ 32
              · change ∀ x ∈ xs, _ at ih
                have hstart : (w.put (header (.array (.ofNat xs.length)))).error = none :=
                  (Writer.error_put _ _).trans hw
                obtain ⟨accepted, sent, hwrites, hreveals⟩ :=
                  notificationWriteElements_reveals (fun x hx w hw => ih x hx hw) hstart
                refine ⟨accepted, header (.array (.ofNat xs.length)) ++ sent, ?_, ?_⟩
                · rw [notificationWriteObject, if_neg (by omega), mpackStartArray_eq, hwrites,
                    Writer.put_put]
                  cases accepted with
                  | false => rfl
                  | true => exact checked_put hw _
                · rw [Object.wireValue, encode, Object.wireValues_eq_map, List.length_map]
                  exact hreveals.cons fun hxs => .intro ⟨trivial, hlen⟩ hxs
              · refine ⟨false, [], ?_, reveals_refused (encode_ne_nil _)⟩
                rw [notificationWriteObject, if_pos (by omega), Writer.put_nil]
      | map => exact hbuilt.elim
      | und => exact hbuilt.elim
      | _ => exact absurd (.leaf ⟨trivial, trivial⟩ rfl) halike

/-! ## Agreement -/

/-- The notification writer sends the bytes of the other encoder just when every binary of
the tree holds bytes and every length fits 32 bits, and then it accepts the object. -/
theorem notificationWriteObject_agrees_iff {o : Object} (ho : o.Everywhere Object.Built)
    (bs : Bytes) :
    ((notificationWriteObject ⟨bs, none⟩ o).2 = objectMarshalMPack ⟨bs, none⟩ o ↔
        o.Everywhere Object.Alike) ∧
      (o.Everywhere Object.Alike → (notificationWriteObject ⟨bs, none⟩ o).1 = true) := by
  rw [objectMarshalMPack_eq]
  refine ⟨⟨fun hsame => ?_, fun halike => ?_⟩, fun halike => ?_⟩
  · obtain ⟨accepted, sent, hwrite, hreveals⟩ :=
      notificationWriteObject_reveals ho (w := ⟨bs, none⟩) rfl
    rw [hwrite] at hsame
    have hsent := Writer.put_inj hsame
    exact (hreveals [] [] (fun _ => rfl) (by rw [hsent])).2.2
  · rw [notificationWriteObject_alike halike rfl]
  · rw [notificationWriteObject_alike halike rfl]

/-- The array `[h'01']` has one form. -/
theorem notificationWriteObject_agrees_iff_bin :
    (notificationWriteObject ⟨[], none⟩
        (.array (some [.bin (some (rawBufferNew (some [1])))]))).2 =
      objectMarshalMPack ⟨[], none⟩ (.array (some [.bin (some (rawBufferNew (some [1])))])) := by
  have hone : ∀ {p : Object → Prop}, p (.array (some [.bin (some (rawBufferNew (some [1])))])) →
      p (.bin (some (rawBufferNew (some [1])))) →
      (Object.array (some [.bin (some (rawBufferNew (some [1])))])).Everywhere p :=
    fun harray hbin => .intro harray (List.forall_mem_singleton.mpr (.leaf hbin rfl))
  refine (notificationWriteObject_agrees_iff (hone trivial ⟨_, rfl⟩) []).1.mpr ?_
  have hlen : 1 < 2 ^ 32 := by decide
  exact hone ⟨trivial, hlen⟩ ⟨List.cons_ne_nil _ _, hlen⟩

/-- An array of one empty binary is `91 c0` in a response and `91 c4 00` in a
notification. -/
theorem encoders_disagree_on_empty_bin :
    ¬∀ (o : Object) (bs : Bytes), o.Everywhere Object.Built →
      (notificationWriteObject ⟨bs, none⟩ o).2 = objectMarshalMPack ⟨bs, none⟩ o := by
  intro hall
  have hbuilt : (Object.array (some [.bin (some (rawBufferNew (some [])))])).Everywhere
      Object.Built :=
    .intro trivial (List.forall_mem_singleton.mpr (.leaf ⟨_, rfl⟩ rfl))
  have hsame := congrArg Writer.written (hall _ [] hbuilt)
  revert hsame
  decide

end Haze
