import Haze.Proto.NotificationRead

/-
  Notifications over the wire.

  The writer appends the canonical encoding of every object it accepts
  (`notificationWriteObject_eq`), so a notification comes back as it was sent
  (`notificationUnmarshal_notificationMarshal`), and what was read is sent back in its
  shortest form (`notificationMarshal_canonical`).
-/

open Msgpack

namespace Haze

/-! ## The writer -/

namespace Object

/-- The kinds a notification carries, with the number of elements its reader allows. -/
def Notified : Object → Prop
  | .und | .str none | .bin none | .array none | .map _ => False
  | .array (some xs) => xs.length ≤ 4096
  | _ => True

/-- A kind of a notification whose lengths fit 32 bits. -/
def Writable (o : Object) : Prop := o.Notified ∧ o.Short (2 ^ 32)

theorem stands_of_notified {o : Object} (h : o.Notified) : o.Stands := by
  cases o with
  | bin b => cases b <;> trivial
  | str s => cases s <;> trivial
  | array xs => cases xs <;> trivial
  | _ => exact h

end Object

theorem notificationWriteElements_eq {xs : List Object}
    (h : ∀ x ∈ xs, ∀ w : Writer, w.error = none →
      notificationWriteObject w x = (true, w.put (encode x.toValue)))
    {w : Writer} (hw : w.error = none) :
    notificationWriteElements w xs =
      (true, w.put (encodeAll (xs.map Object.toValue))) := by
  induction xs generalizing w with
  | nil => simp [notificationWriteElements]
  | cons x xs ih =>
      obtain ⟨hx, hxs⟩ := List.forall_mem_cons.mp h
      rw [notificationWriteElements, hx w hw]
      simp only
      rw [ih hxs ((Writer.error_put _ _).trans hw), Writer.put_put, List.map_cons, encodeAll_cons]

theorem checked_put {w : Writer} (hw : w.error = none) (bs : Bytes) :
    (w.put bs).checked = (true, w.put bs) := by
  rw [Writer.checked, Writer.error_put, hw]
  rfl

/-- An accepted object is written as the canonical encoding of the value it stands for. -/
theorem notificationWriteObject_eq {o : Object}
    (ho : o.Everywhere fun x => x.Stands ∧ x.Short (2 ^ 32)) {w : Writer} (hw : w.error = none) :
    notificationWriteObject w o = (true, w.put (encode o.toValue)) := by
  induction ho generalizing w with
  | @intro o hboth _ ih =>
      obtain ⟨hstands, hshort⟩ := hboth
      cases o with
      | str s =>
          cases s with
          | none => exact hstands.elim
          | some s =>
              have hlen : s.bytes.length < 2 ^ 32 := hshort
              rw [notificationWriteObject, CString.strlen, if_neg (by omega), mpackWriteStr_eq,
                take_ofNat_length, castBytes_of_lt hlen, checked_put hw, Object.toValue, encode_eq]
              simp [Value.tag, Value.payload, Value.children]
      | bin b =>
          cases b with
          | none => exact hstands.elim
          | some b =>
              have hlen : b.bytes.length < 2 ^ 32 := hshort
              have hbuf : rawBufferLen b = b.bytes.length := rfl
              rw [notificationWriteObject, hbuf, if_neg (by omega), mpackWriteBin_eq,
                take_ofNat_length, castBytes_of_lt hlen, checked_put hw, Object.toValue, encode_eq]
              simp [Value.tag, Value.payload, Value.children]
      | array xs =>
          cases xs with
          | none => exact hstands.elim
          | some xs =>
              have hlen : xs.length < 2 ^ 32 := hshort
              have hxs : ∀ x ∈ xs, ∀ w : Writer, w.error = none →
                  notificationWriteObject w x = (true, w.put (encode x.toValue)) :=
                fun x hx w hw => ih x hx hw
              rw [notificationWriteObject, if_neg (by omega), mpackStartArray_eq,
                notificationWriteElements_eq hxs ((Writer.error_put _ _).trans hw)]
              simp only
              rw [Writer.put_put, checked_put hw, Object.toValue, encode, Object.toValues_eq_map,
                List.length_map]
      | map => exact hstands.elim
      | und => exact hstands.elim
      | nil => exact checked_put hw _
      | float bits => exact checked_put hw _
      | double bits => exact checked_put hw _
      | bool v =>
          rw [notificationWriteObject, mpackWriteBool_eq, checked_put hw, Object.toValue, encode_eq]
          simp [Value.tag, Value.payload, Value.children]
      | int v =>
          rw [notificationWriteObject, mpackWriteI64_eq, checked_put hw, Object.toValue, encode_eq]
          simp [Value.tag, Value.payload, Value.children]
      | uint v =>
          rw [notificationWriteObject, mpackWriteU64_eq, checked_put hw, Object.toValue, encode_eq]
          simp [Value.tag, Value.payload, Value.children]

/-- A notification is marshalled as the canonical encoding of `[2, method, params]`. -/
theorem notificationMarshal_eq {n : Notification} {method : CString} {params : List Object}
    (hmethod : n.method = some method) (hparams : n.params = some params)
    (hlen : method.strlen ≤ 4095) (hcount : params.length ≤ 4096)
    (hwritable : ∀ p ∈ params, p.Everywhere Object.Writable) :
    notificationMarshal n = some ⟨some (encode (.array [.uint 2, .str method.bytes,
      .array (params.map Object.toValue)]))⟩ := by
  have hbytes : method.bytes.length < 2 ^ 32 := lt_of_le_of_lt hlen (by decide)
  have htwo : hazeRpcNotification.toUInt64 = 2 := rfl
  have hstands : ∀ p ∈ params, p.Everywhere fun x => x.Stands ∧ x.Short (2 ^ 32) := fun p hp =>
    (hwritable p hp).mono fun o ho => ⟨Object.stands_of_notified ho.1, ho.2⟩
  rw [notificationMarshal, hmethod, hparams]
  simp only [Option.bind_eq_bind, Option.bind_some]
  rw [if_neg (by omega), mpackStartArray_eq, mpackWriteU64_eq, mpackWriteStr_eq,
    mpackStartArray_eq, notificationWriteElements_eq
      (fun x hx w hw => notificationWriteObject_eq (hstands x hx) hw) rfl]
  simp only [CString.strlen, take_ofNat_length, castBytes_of_lt hbytes, htwo]
  simp [mpackWriterDestroy, mpackWriterInitGrowable, Writer.put, encode, Value.tag, Value.payload]

/-! ## The round trip -/

theorem notifiable_toValue {o : Object} (ho : o.Notified) : Notifiable o.toValue := by
  cases o with
  | str s =>
      cases s with
      | none => exact ho.elim
      | some s => exact s.nulFree
  | bin b => cases b <;> trivial
  | array xs =>
      cases xs with
      | none => exact ho.elim
      | some xs =>
          simpa [Object.toValue, Notifiable, Object.toValues_eq_map, Object.Notified] using ho
  | map => exact ho.elim
  | _ => trivial

theorem notifiable_norm {v : Value} (hv : Notifiable v) : Notifiable v.norm := by
  cases v with
  | int n =>
      rw [Value.norm]
      split_ifs <;> trivial
  | array vs => simpa [Value.norm, Notifiable, Value.normAll_eq_map] using hv
  | map kvs => exact hv.elim
  | _ => exact hv

/-- The canonical encoding of a value of the grammar is accepted. -/
theorem notificationUnmarshal_encode {type : Value} {method : Bytes} {params : List Value}
    (hnorm : type.norm = .uint 2) (hlen : method.length ≤ 4095) (hnul : 0 ∉ method)
    (hcount : params.length ≤ 4096) (hok : ∀ p ∈ params, p.Everywhere Notifiable)
    (hfits : (Value.array [type, .str method, .array params]).Fits) :
    Encodes (.array [type, .str method, .array params] : Value).norm
        (encode (.array [type, .str method, .array params])) ∧
      NotificationOf (.array [type, .str method, .array params] : Value).norm
        { type := hazeRpcNotification, method := some (.ofBytes method),
          params := some ((params.map Value.norm).map Object.ofValue) } := by
  refine ⟨encodes_encode hfits, .uint 2, method, params.map Value.norm, ?_, rfl, hlen, hnul,
    by rwa [List.length_map], ?_, rfl⟩
  · simp [Value.norm, Value.normAll_eq_map, hnorm]
  · rw [List.forall_mem_map]
    exact fun p hp => (hok p hp).norm fun v hv => notifiable_norm hv

/-- A notification within the limits of the format comes back with the same method and
the same parameters, non-negative integers as unsigned ones. -/
theorem notificationUnmarshal_notificationMarshal {n : Notification} {method : CString}
    {params : List Object} (hmethod : n.method = some method) (hparams : n.params = some params)
    (hlen : method.strlen ≤ 4095) (hcount : params.length ≤ 4096)
    (hnotified : ∀ p ∈ params, p.Everywhere Object.Notified)
    (hshort : ∀ p ∈ params, p.Everywhere (Object.Short (2 ^ 32))) :
    ∃ f n', notificationMarshal n = some f ∧ notificationUnmarshal f.bytes = .ok (some n') ∧
      n'.method = some method ∧ n'.params = some (params.map Object.readBack) := by
  have hmarshal := notificationMarshal_eq hmethod hparams hlen hcount fun p hp =>
    (hnotified p hp).and (hshort p hp)
  have hcount' : (params.map Object.toValue).length ≤ 4096 := by rwa [List.length_map]
  have hok : ∀ v ∈ params.map Object.toValue, v.Everywhere Notifiable :=
    List.forall_mem_map.mpr fun p hp => (hnotified p hp).toValue fun o ho => notifiable_toValue ho
  have hparamsFit : ∀ v ∈ params.map Object.toValue, v.Fits :=
    List.forall_mem_map.mpr fun p hp => Object.fits_toValue le_rfl (hshort p hp)
  have hfits : Value.Fits (.array [.uint 2, .str method.bytes,
      .array (params.map Object.toValue)]) := by
    simp only [Value.fits_array, List.forall_mem_cons]
    exact ⟨by simp, Value.fits_uint 2, Value.fits_of_scalar rfl (lt_of_le_of_lt hlen (by decide)),
      ⟨lt_of_le_of_lt hcount' (by decide), hparamsFit⟩, by simp⟩
  obtain ⟨hv, hof⟩ := notificationUnmarshal_encode rfl hlen method.nulFree hcount' hok hfits
  have hread := notificationUnmarshal_complete hv hof []
  rw [List.append_nil] at hread
  refine ⟨_, _, hmarshal, hread, by rw [CString.ofBytes_self], ?_⟩
  have hback : ∀ p ∈ params, Object.ofValue p.toValue.norm = p.readBack := fun p hp =>
    Object.ofValue_norm_toValue ((hnotified p hp).mono fun o ho => Object.stands_of_notified ho)
  simp only [List.map_map]
  exact congrArg some (List.map_congr_left hback)

/-- The notification `[2, "m", [-1]]` comes back. -/
theorem notificationUnmarshal_notificationMarshal_int :
    ∃ f n', notificationMarshal ⟨2, some (.ofString "m"), some [.int (-1)]⟩ = some f ∧
      notificationUnmarshal f.bytes = .ok (some n') ∧ n'.method = some (.ofString "m") ∧
      n'.params = some [.int (-1)] := by
  have hint : ∀ {p : Object → Prop}, p (.int (-1)) →
      ∀ o ∈ [Object.int (-1)], o.Everywhere p := fun hp =>
    List.forall_mem_singleton.mpr (.leaf hp rfl)
  exact notificationUnmarshal_notificationMarshal (n := ⟨2, some (.ofString "m"), _⟩) rfl rfl
    (by decide) (by decide) (hint trivial) (hint trivial)

/-- A string of `2 ^ 32` bytes is refused, so the bound on lengths cannot be dropped. -/
theorem notificationMarshal_refuses_long :
    ¬∀ (n : Notification) (method : CString) (params : List Object), n.method = some method →
      n.params = some params → method.strlen ≤ 4095 → params.length ≤ 4096 →
      (∀ p ∈ params, p.Everywhere Object.Notified) →
        ∃ f n', notificationMarshal n = some f ∧ notificationUnmarshal f.bytes = .ok (some n') ∧
          n'.method = some method ∧ n'.params = some (params.map Object.readBack) := by
  intro hall
  obtain ⟨s, hs⟩ : ∃ s : CString, s.strlen = 2 ^ 32 := CString.exists_strlen _
  have hstr : ∀ p ∈ [Object.str (some s)], p.Everywhere Object.Notified :=
    List.forall_mem_singleton.mpr (.leaf trivial rfl)
  obtain ⟨f, -, hmarshal, -⟩ := hall ⟨2, some (.ofString "m"), some [.str (some s)]⟩ _ _ rfl rfl
    (by decide) (by simp) hstr
  simp [notificationMarshal, notificationWriteElements, notificationWriteObject, hs,
    mpackWriterFlagError, mpackWriterDestroy, mpackWriterInitGrowable, Writer.put] at hmarshal

/-! ## Canonical form -/

theorem toValue_ofValue {v : Value} (hv : v.Everywhere Notifiable) :
    (Object.ofValue v).toValue = v := by
  induction hv with
  | @intro v hok _ ih =>
      cases v with
      | map kvs => exact hok.elim
      | str s => simp [Object.ofValue, Object.toValue, CString.ofBytes_bytes hok]
      | bin s => simp [Object.ofValue, Object.toValue]
      | array vs =>
          have hvs : (vs.map Object.ofValue).map Object.toValue = vs := by
            rw [List.map_map]
            exact (List.map_congr_left ih).trans (List.map_id vs)
          rw [Object.ofValue, Object.toValue, Object.ofValues_eq_map, Object.toValues_eq_map, hvs]
      | _ => rfl

theorem writable_ofValue {v : Value} (hv : v.Everywhere Notifiable) (hfits : v.Fits) :
    (Object.ofValue v).Everywhere Object.Writable := by
  induction hv with
  | @intro v hok _ ih =>
      obtain ⟨hcount, hchildren⟩ := Value.fits_iff.mp hfits
      cases v with
      | map kvs => exact hok.elim
      | str s => exact .leaf ⟨trivial, lt_of_le_of_lt (CString.strlen_ofBytes_le s) hcount⟩ rfl
      | bin s =>
          refine .leaf ⟨trivial, ?_⟩ rfl
          simpa [Object.ofValue, Object.Short, Value.count] using hcount
      | array vs =>
          rw [Object.ofValue, Object.ofValues_eq_map]
          refine .intro ⟨?_, ?_⟩ ?_
          · simpa [Object.Notified, Notifiable] using hok
          · simpa [Object.Short, Value.count] using hcount
          · exact List.forall_mem_map.mpr fun w hw => ih w hw (hchildren w hw)
      | _ => exact .leaf ⟨trivial, trivial⟩ rfl

/-- A notification that was read is marshalled as the canonical encoding of what it was
read from. -/
theorem notificationMarshal_of {v : Value} {n : Notification} (hn : NotificationOf v n)
    (hfits : v.Fits) : notificationMarshal n = some ⟨some (encode v)⟩ := by
  obtain ⟨type, method, params, rfl, hnorm, hlen, hnul, hcount, hok, rfl⟩ := hn
  have hbytes := CString.ofBytes_bytes hnul
  have hparams : (params.map Object.ofValue).map Object.toValue = params := by
    rw [List.map_map]
    exact (List.map_congr_left fun p hp => toValue_ofValue (hok p hp)).trans (List.map_id params)
  have htype : encode type = encode (.uint 2) := by rw [← encode_norm, hnorm]
  have hfitsParams : ∀ p ∈ params, p.Fits := by
    simp only [Value.fits_array, List.forall_mem_cons] at hfits
    exact hfits.2.2.2.1.2
  rw [notificationMarshal_eq rfl rfl (by rwa [CString.strlen, hbytes]) (by rwa [List.length_map])
    (List.forall_mem_map.mpr fun p hp => writable_ofValue (hok p hp) (hfitsParams p hp)),
    hbytes, hparams]
  simp only [encode, encodeAll, htype]
  rfl

/-- What was read from a buffer is marshalled to the canonical encoding of its value, no
longer than what was read; it is accepted in turn, and marshalled to itself. -/
theorem notificationMarshal_canonical {b : Bytes} {n : Notification}
    (hrun : notificationUnmarshal b = .ok (some n)) :
    ∃ v frame rest c v' n', (b = frame ++ rest ∧ Encodes v frame ∧ NotificationOf v n) ∧
      notificationMarshal n = some c ∧ c.bytes.length ≤ frame.length ∧
      (notificationUnmarshal c.bytes = .ok (some n') ∧ Encodes v' c.bytes ∧
        NotificationOf v' n') ∧
      notificationMarshal n' = some c ∧ v'.norm = v.norm := by
  obtain ⟨v, frame, rest, rfl, hv, hn⟩ := notificationUnmarshal_sound hrun
  have hfits : v.Fits := fits_of_encodesAll hv v (List.mem_singleton_self v)
  have hle : (encode v).length ≤ frame.length := by simpa using encodeAll_length_le hv
  obtain ⟨hcanonical, hof⟩ : Encodes v.norm (encode v) ∧ ∃ n', NotificationOf v.norm n' := by
    obtain ⟨type, method, params, rfl, hnorm, hlen, hnul, hcount, hok, -⟩ := hn
    have := notificationUnmarshal_encode hnorm hlen hnul hcount hok hfits
    exact ⟨this.1, _, this.2⟩
  obtain ⟨n', hn'⟩ := hof
  have hread := notificationUnmarshal_complete hcanonical hn' []
  have hagain := notificationMarshal_of hn'
    (fits_of_encodesAll hcanonical _ (List.mem_singleton_self _))
  rw [List.append_nil] at hread
  rw [encode_norm] at hagain
  exact ⟨v, frame, rest, _, v.norm, n', ⟨rfl, hv, hn⟩, notificationMarshal_of hn hfits, hle,
    ⟨hread, hcanonical, hn'⟩, hagain, v.norm_norm⟩

/-- The non-minimal buffer `[2, "m", [1]]`, with a byte behind it. -/
theorem notificationMarshal_canonical_wide :
    ∃ v frame rest c v' n',
      ([0x93, 0xd0, 0x02, 0xa1, 0x6d, 0x91, 0xcc, 0x01, 0xc1] = frame ++ rest ∧
        Encodes v frame ∧ NotificationOf v ⟨2, some (.ofString "m"), some [.uint 1]⟩) ∧
      notificationMarshal ⟨2, some (.ofString "m"), some [.uint 1]⟩ = some c ∧
      c.bytes.length ≤ frame.length ∧
      (notificationUnmarshal c.bytes = .ok (some n') ∧ Encodes v' c.bytes ∧
        NotificationOf v' n') ∧
      notificationMarshal n' = some c ∧ v'.norm = v.norm :=
  notificationMarshal_canonical rfl

end Haze
