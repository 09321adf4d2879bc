import Haze.Proto.Notification

/-
  What `NotificationUnmarshal` accepts.

  `notificationReadObject_complete` and `notificationReadObject_sound` relate the reader
  to the encodings of the values a notification may hold; the error of the reader is
  never lost on the way (`notificationReadElements_failed`). The buffers accepted are
  those that start with a frame (`notificationUnmarshal_accepts_iff`).
-/

open Msgpack

namespace Haze

/-- The nodes a notification may have: no map, no long array, no string with a NUL. -/
def Notifiable : Value → Prop
  | .map _ => False
  | .array vs => vs.length ≤ 4096
  | .str s => 0 ∉ s
  | _ => True

/-! ## Completeness -/

theorem notificationReadElements_complete (checked : Bool)
    {read : Reader → Except Fault (Option Object × Reader)} {vs : List Value} {bs : Bytes}
    (hbs : EncodesAll vs bs) (rest : Bytes)
    (hread : ∀ v ∈ vs, ∀ b rest, Encodes v b → b.length ≤ bs.length →
      read (.ok (b ++ rest)) = .ok (some (Object.ofValue v), .ok rest)) (arr : List Object) :
    notificationReadElements checked read vs.length (.ok (bs ++ rest)) arr =
      .ok (some (arr ++ vs.map Object.ofValue), .ok rest) := by
  induction vs generalizing bs arr with
  | nil =>
      obtain rfl := encodesAll_nil_iff.mp hbs
      simp [notificationReadElements]
  | cons v vs ih =>
      obtain ⟨b, body, rfl, hb, hbody⟩ := encodesAll_cons_iff.mp hbs
      obtain ⟨hv, hvs⟩ := List.forall_mem_cons.mp hread
      have hnext := ih hbody (fun w hw c rest hc hlen => hvs w hw c rest hc (by
        rw [List.length_append]
        omega)) (objectArrayAppend arr (Object.ofValue v))
      rw [List.length_cons, notificationReadElements, List.append_assoc, hv b _ hb (by simp)]
      simp only [mpackReaderError_ok, ne_eq, not_true_eq_false, and_false, if_false, bind,
        Except.bind]
      rw [hnext, objectArrayAppend, Object.objectCopy_ofValue, List.append_assoc]
      rfl

/-- A node without elements is read by the branch of its tag. -/
theorem notificationReadObject_scalar {v : Value} (hv : v.scalar) (hok : Notifiable v)
    (hcount : v.count < 2 ^ 32) {h : Bytes} (hs : Spells v.tag h) (rest : Bytes) (fuel : Nat) :
    notificationReadObject (fuel + 1) (.ok (h ++ (v.payload ++ rest))) =
      .ok (some (Object.ofValue v), .ok rest) := by
  rw [notificationReadObject, mpackPeekTag_spells hs]
  cases v with
  | nil =>
      simp only [Value.tag, mpackExpectNil_spells hs]
      rfl
  | bool v =>
      simp only [Value.tag, mpackExpectBool_spells hs]
      rfl
  | uint n =>
      simp only [Value.tag, mpackExpectU64_spells hs rfl]
      rfl
  | int n =>
      simp only [Value.tag, mpackExpectI64_spells hs]
      rfl
  | float bits =>
      simp only [Value.tag, mpackExpectFloatStrict_spells hs]
      rfl
  | double bits =>
      simp only [Value.tag, mpackExpectDoubleStrict_spells hs]
      rfl
  | str s =>
      have hto : (UInt32.ofNat s.length).toNat = s.length := UInt32.toNat_ofNat_of_lt' hcount
      simp only [Value.tag, Value.payload, notificationReadStr, mpackExpectStr_spells hs, hto,
        mpackReadBytes_append, if_neg hok]
      rfl
  | bin s =>
      have hto : (UInt32.ofNat s.length).toNat = s.length := UInt32.toNat_ofNat_of_lt' hcount
      have hbytes : (if 0 < s.length then mpackReadBytes (.ok (s ++ rest)) s.length
          else ([], .ok (s ++ rest))) = (s, .ok rest) := by
        split_ifs with hempty
        · exact mpackReadBytes_append s rest
        · rw [List.length_eq_zero_iff.mp (Nat.eq_zero_of_not_pos hempty), List.nil_append]
      simp only [Value.tag, Value.payload, notificationReadBin, mpackExpectBin_spells hs, hto,
        hbytes]
      rfl
  | array vs => cases hv
  | map kvs => cases hv

theorem notificationReadObject_complete {v : Value} (hv : v.Everywhere Notifiable) {b : Bytes}
    (hb : Encodes v b) (rest : Bytes) {fuel : Nat} (hfuel : b.length < fuel) :
    notificationReadObject fuel (.ok (b ++ rest)) = .ok (some (Object.ofValue v), .ok rest) := by
  induction hv generalizing b rest fuel with
  | @intro v hok _ ih =>
      obtain ⟨h, body, hh, hcount, hbody, rfl⟩ := encodes_iff.mp hb
      have hpos := spells_length_pos hh
      obtain ⟨fuel, rfl⟩ := Nat.exists_eq_succ_of_ne_zero (Nat.ne_zero_of_lt hfuel)
      rw [List.append_assoc, List.append_assoc]
      cases v with
      | array vs =>
          have hto : (UInt32.ofNat vs.length).toNat = vs.length :=
            UInt32.toNat_ofNat_of_lt' hcount
          have hmax : UInt32.ofNat vs.length ≤ notificationMaxParams := by
            rw [UInt32.le_iff_toNat_le, hto]
            exact hok
          have hlen : body.length < fuel := by
            simp only [Value.payload, List.length_append] at hfuel
            omega
          have hloop : notificationReadElements true (notificationReadObject fuel) vs.length
              (.ok (body ++ rest)) [] = .ok (some (vs.map Object.ofValue), .ok rest) :=
            notificationReadElements_complete true hbody rest (fun v hv b rest hb hle =>
              ih v hv hb rest (lt_of_le_of_lt hle hlen)) []
          rw [notificationReadObject, mpackPeekTag_spells hh]
          simp only [Value.tag, Value.payload, List.nil_append, mpackExpectArrayMax_spells hh hmax,
            hto, hloop, bind, Except.bind]
          rw [Object.ofValue, Object.ofValues_eq_map]
          rfl
      | map kvs => exact hok.elim
      | _ =>
          obtain rfl := encodesAll_nil_iff.mp hbody
          exact notificationReadObject_scalar rfl hok hcount hh rest fuel

/-! ## Soundness -/

/-- The bytes read hold a value a notification may have, and the object is that value's. -/
def Denotes (read : Bytes) (o : Object) : Prop :=
  ∃ v, Encodes v read ∧ v.Everywhere Notifiable ∧ o = Object.ofValue v

/-- A loop that starts with an error ends with it. -/
theorem notificationReadElements_failed {checked : Bool}
    {read : Reader → Except Fault (Option Object × Reader)} {e : MpackError}
    (hread : ∀ o reader, read (.failed e) = .ok (some o, reader) → reader = .failed e)
    {n : Nat} {arr arr' : List Object} {reader : Reader}
    (hrun : notificationReadElements checked read n (.failed e) arr = .ok (some arr', reader)) :
    reader = .failed e := by
  induction n generalizing arr with
  | zero =>
      obtain ⟨-, rfl⟩ := Prod.mk.inj (Except.ok.inj hrun)
      rfl
  | succ n ih =>
      rw [notificationReadElements] at hrun
      split_ifs at hrun
      · cases hrun
      · obtain ⟨⟨child, reader'⟩, hone, hrest⟩ := bind_eq_ok.mp hrun
        cases child with
        | none => cases hrest
        | some child =>
            obtain rfl := hread _ _ hone
            exact ih hrest

theorem notificationReadElements_sound {checked : Bool}
    {read : Reader → Except Fault (Option Object × Reader)}
    (hfailed : ∀ e o reader, read (.failed e) = .ok (some o, reader) → reader = .failed e)
    (hread : ∀ data o rest, read (.ok data) = .ok (some o, .ok rest) →
      ∃ b, data = b ++ rest ∧ Denotes b o)
    {n : Nat} {data rest : Bytes} {arr arr' : List Object}
    (hrun : notificationReadElements checked read n (.ok data) arr = .ok (some arr', .ok rest)) :
    ∃ vs b, data = b ++ rest ∧ vs.length = n ∧ EncodesAll vs b ∧
      (∀ v ∈ vs, v.Everywhere Notifiable) ∧ arr' = arr ++ vs.map Object.ofValue := by
  induction n generalizing data arr with
  | zero =>
      simp only [notificationReadElements, Except.ok.injEq, Prod.mk.injEq, Option.some.injEq,
        Reader.ok.injEq] at hrun
      obtain ⟨rfl, rfl⟩ := hrun
      exact ⟨[], [], rfl, rfl, .nil, nofun, by simp⟩
  | succ n ih =>
      rw [notificationReadElements, if_neg (by simp)] at hrun
      obtain ⟨⟨child, reader⟩, hone, hrest⟩ := bind_eq_ok.mp hrun
      cases child with
      | none => cases hrest
      | some child =>
          cases reader with
          | failed e =>
              -- the loop cannot recover from an error
              cases notificationReadElements_failed (hfailed e) hrest
          | ok mid =>
              obtain ⟨b, rfl, v, hb, hv, rfl⟩ := hread _ _ _ hone
              obtain ⟨vs, b', rfl, rfl, hb', hvs, rfl⟩ := ih hrest
              refine ⟨v :: vs, b ++ b', by simp, rfl, encodesAll_cons_iff.mpr ⟨b, b', rfl, hb, hb'⟩,
                List.forall_mem_cons.mpr ⟨hv, hvs⟩, ?_⟩
              simp [objectArrayAppend]

theorem notificationReadObject_failed {fuel : Nat} {e : MpackError} {o : Object}
    {reader : Reader} (hrun : notificationReadObject fuel (.failed e) = .ok (some o, reader)) :
    reader = .failed e := by
  cases fuel with
  | zero => cases hrun
  | succ fuel =>
      obtain ⟨-, rfl⟩ := Prod.mk.inj (Except.ok.inj hrun)
      rfl

theorem denotes_of_scalar {v : Value} {h : Bytes} (hv : v.scalar) (hs : Spells v.tag h)
    (hcount : v.count < 2 ^ 32) (hok : Notifiable v) :
    Denotes (h ++ v.payload) (Object.ofValue v) :=
  ⟨v, encodes_of_scalar hv hs hcount, .leaf hok (Value.children_of_scalar hv), rfl⟩

theorem denotes_array {count : UInt32} {vs : List Value} {h b : Bytes}
    (hs : Spells (.array count) h) (hlen : vs.length = count.toNat)
    (hmax : count ≤ notificationMaxParams) (hb : EncodesAll vs b)
    (hok : ∀ v ∈ vs, v.Everywhere Notifiable) :
    Denotes (h ++ b) (.array (some ([] ++ vs.map Object.ofValue))) := by
  have htag : Value.tag (.array vs) = .array count := by
    rw [Value.tag, hlen, UInt32.ofNat_toNat]
  have hcount : vs.length < 2 ^ 32 := hlen ▸ count.toNat_lt
  have hle : vs.length ≤ 4096 := hlen ▸ UInt32.le_iff_toNat_le.mp hmax
  refine ⟨.array vs, encodes_iff.mpr ⟨h, b, htag ▸ hs, hcount, hb, ?_⟩, .intro hle hok, ?_⟩
  · simp [Value.payload]
  · rw [Object.ofValue, Object.ofValues_eq_map, List.nil_append]

theorem notificationReadStr_sound {h tail rest : Bytes} {n : UInt32} {o : Object}
    (hs : Spells (.str n) h)
    (hrun : notificationReadStr (.ok (h ++ tail)) = (some o, .ok rest)) :
    ∃ b, h ++ tail = b ++ rest ∧ Denotes b o := by
  rw [notificationReadStr, mpackExpectStr_spells hs] at hrun
  simp only at hrun
  split at hrun
  · cases hrun
  · rename_i buffer reader _ hbytes
    split_ifs at hrun with hnul
    · cases hrun
    · obtain ⟨rfl, rfl⟩ : .str (some (.ofBytes buffer)) = o ∧ reader = .ok rest := by
        simpa using hrun
      obtain ⟨hlen, rfl⟩ := mpackReadBytes_sound hbytes
      have htag : Value.tag (.str buffer) = .str n := by
        rw [Value.tag, hlen, UInt32.ofNat_toNat]
      have hcount : buffer.length < 2 ^ 32 := hlen ▸ n.toNat_lt
      exact ⟨h ++ buffer, (List.append_assoc _ _ _).symm,
        @denotes_of_scalar (.str buffer) h rfl (htag ▸ hs) hcount hnul⟩

theorem notificationReadBin_sound {h tail rest : Bytes} {n : UInt32} {o : Object}
    (hs : Spells (.bin n) h)
    (hrun : notificationReadBin (.ok (h ++ tail)) = (some o, .ok rest)) :
    ∃ b, h ++ tail = b ++ rest ∧ Denotes b o := by
  rw [notificationReadBin, mpackExpectBin_spells hs] at hrun
  simp only at hrun
  split at hrun
  · cases hrun
  · rename_i data reader _ hbytes
    obtain ⟨rfl, rfl⟩ : .bin (some (rawBufferNew (some data))) = o ∧ reader = .ok rest := by
      simpa using hrun
    obtain ⟨hlen, rfl⟩ : data.length = n.toNat ∧ tail = data ++ rest := by
      split_ifs at hbytes with hempty
      · exact mpackReadBytes_sound hbytes
      · obtain ⟨rfl, heq⟩ := Prod.mk.inj hbytes
        exact ⟨(Nat.eq_zero_of_not_pos hempty).symm, Reader.ok.inj heq⟩
    have htag : Value.tag (.bin data) = .bin n := by
      rw [Value.tag, hlen, UInt32.ofNat_toNat]
    have hcount : data.length < 2 ^ 32 := hlen ▸ n.toNat_lt
    exact ⟨h ++ data, (List.append_assoc _ _ _).symm,
      @denotes_of_scalar (.bin data) h rfl (htag ▸ hs) hcount trivial⟩

theorem notificationReadObject_scalar_sound {v : Value} (hv : v.scalar) (hpayload : v.payload = [])
    (hok : Notifiable v) (hcount : v.count < 2 ^ 32) {h tail rest : Bytes} {o : Object} {fuel : Nat}
    (hs : Spells v.tag h)
    (hrun : notificationReadObject (fuel + 1) (.ok (h ++ tail)) = .ok (some o, .ok rest)) :
    ∃ b, h ++ tail = b ++ rest ∧ Denotes b o := by
  have hread := notificationReadObject_scalar hv hok hcount hs tail fuel
  rw [hpayload, List.nil_append, hrun] at hread
  obtain ⟨rfl, rfl⟩ : o = Object.ofValue v ∧ rest = tail := by simpa using hread
  have hdenotes := denotes_of_scalar hv hs hcount hok
  rw [hpayload, List.append_nil] at hdenotes
  exact ⟨h, rfl, hdenotes⟩

theorem notificationReadObject_sound (fuel : Nat) {data rest : Bytes} {o : Object}
    (hrun : notificationReadObject fuel (.ok data) = .ok (some o, .ok rest)) :
    ∃ b, data = b ++ rest ∧ Denotes b o := by
  induction fuel generalizing data rest o with
  | zero => cases hrun
  | succ fuel ih =>
      obtain ⟨t, h, tail, hs, rfl⟩ | ⟨e, -, hpeek⟩ := mpackReadTag_cases data
      · have hbranch := hrun
        rw [notificationReadObject, mpackPeekTag_spells hs] at hbranch
        cases t with
        | nil =>
            exact @notificationReadObject_scalar_sound .nil rfl rfl trivial (by decide) _ _ _ _ _
              hs hrun
        | bool v =>
            exact @notificationReadObject_scalar_sound (.bool v) rfl rfl trivial
              (by simp [Value.count]) _ _ _ _ _ hs hrun
        | uint n =>
            exact @notificationReadObject_scalar_sound (.uint n) rfl rfl trivial
              (by simp [Value.count]) _ _ _ _ _ hs hrun
        | int n =>
            exact @notificationReadObject_scalar_sound (.int n) rfl rfl trivial
              (by simp [Value.count]) _ _ _ _ _ hs hrun
        | float bits =>
            exact @notificationReadObject_scalar_sound (.float bits) rfl rfl trivial
              (by simp [Value.count]) _ _ _ _ _ hs hrun
        | double bits =>
            exact @notificationReadObject_scalar_sound (.double bits) rfl rfl trivial
              (by simp [Value.count]) _ _ _ _ _ hs hrun
        | str n => exact notificationReadStr_sound hs (Except.ok.inj hbranch)
        | bin n => exact notificationReadBin_sound hs (Except.ok.inj hbranch)
        | array n =>
            simp only at hbranch
            split at hbranch
            · cases hbranch
            · rename_i count reader hnotFailed hmax
              obtain ⟨⟨arr, reader'⟩, hloop, hrest⟩ := bind_eq_ok.mp hbranch
              cases reader with
              | failed e => exact absurd rfl (hnotFailed e)
              | ok tail' =>
                  obtain ⟨h', hs', hle, heq⟩ := mpackExpectArrayMax_sound hmax
                  split at hrest
                  · rename_i array data' hpair
                    obtain ⟨rfl, rfl⟩ := Prod.mk.inj hpair
                    obtain ⟨rfl, rfl⟩ : Object.array (some array) = o ∧ data' = rest := by
                      simpa [pure, Except.pure] using hrest
                    obtain ⟨vs, b, rfl, hlen, hvs, hok, rfl⟩ := notificationReadElements_sound
                      (fun e o reader => notificationReadObject_failed) (fun _ _ _ => ih) hloop
                    exact ⟨h' ++ b, by rw [heq, List.append_assoc],
                      denotes_array hs' hlen hle hvs hok⟩
                  · cases hrest
        | map n =>
            simp only at hbranch
            have hread := Prod.mk.inj (Except.ok.inj hbranch)
            cases hread.1
      · rw [notificationReadObject, hpeek] at hrun
        cases hrun

/-! ## Termination -/

/-- A run that ends, with a reader that follows the one it started with. -/
def Ends {α : Type} (reader : Reader) (out : Except Fault (α × Reader)) : Prop :=
  ∃ a reader', out = .ok (a, reader') ∧ reader.Follows reader'

theorem notificationReadElements_ends {checked : Bool}
    {read : Reader → Except Fault (Option Object × Reader)} {bound : Nat}
    (hread : ∀ reader, mpackReaderRemaining reader < bound → Ends reader (read reader))
    (n : Nat) {reader : Reader} (hbound : mpackReaderRemaining reader < bound)
    (arr : List Object) : Ends reader (notificationReadElements checked read n reader arr) := by
  induction n generalizing reader arr with
  | zero => exact ⟨_, _, rfl, .refl reader⟩
  | succ n ih =>
      rw [notificationReadElements]
      split_ifs
      · exact ⟨_, _, rfl, .refl reader⟩
      · obtain ⟨child, reader', hone, hfollows⟩ := hread reader hbound
        simp only [hone, bind, Except.bind]
        cases child with
        | none => exact ⟨_, _, rfl, hfollows⟩
        | some child =>
            obtain ⟨out, reader'', hrest, hfollows'⟩ :=
              ih (lt_of_le_of_lt hfollows.remaining_le hbound) (objectArrayAppend arr child)
            exact ⟨out, reader'', hrest, hfollows.trans hfollows'⟩

theorem notificationReadStr_follows {n : UInt32} {h : Bytes} (hs : Spells (.str n) h)
    (tail : Bytes) : (Reader.ok tail).Follows (notificationReadStr (.ok (h ++ tail))).2 := by
  have hbytes := mpackReadBytes_follows (.ok tail) n.toNat
  rw [notificationReadStr, mpackExpectStr_spells hs]
  simp only
  generalize mpackReadBytes (.ok tail) n.toNat = out at hbytes ⊢
  split
  · exact .failed _
  · split_ifs
    · exact mpackReaderFlagError_follows _ _ _
    · exact hbytes

theorem notificationReadBin_follows {n : UInt32} {h : Bytes} (hs : Spells (.bin n) h)
    (tail : Bytes) : (Reader.ok tail).Follows (notificationReadBin (.ok (h ++ tail))).2 := by
  have hbytes : (Reader.ok tail).Follows
      (if 0 < n.toNat then mpackReadBytes (.ok tail) n.toNat else ([], .ok tail)).2 := by
    split_ifs
    · exact mpackReadBytes_follows _ _
    · exact .refl _
  rw [notificationReadBin, mpackExpectBin_spells hs]
  simp only
  generalize (if 0 < n.toNat then mpackReadBytes (.ok tail) n.toNat else ([], .ok tail)) = out
    at hbytes ⊢
  split
  · exact .failed _
  · exact hbytes

/-- The reader never runs out of a bound above what is left to read. -/
theorem notificationReadObject_ends (fuel : Nat) {reader : Reader}
    (hfuel : mpackReaderRemaining reader < fuel) :
    Ends reader (notificationReadObject fuel reader) := by
  induction fuel generalizing reader with
  | zero => cases hfuel
  | succ fuel ih =>
      cases reader with
      | failed e => exact ⟨_, _, rfl, .failed e⟩
      | ok data =>
          obtain ⟨t, h, tail, hs, rfl⟩ | ⟨e, -, hpeek⟩ := mpackReadTag_cases data
          · have htail : (Reader.ok (h ++ tail)).Follows (.ok tail) :=
              .suffix rfl (List.suffix_append h tail)
            have leaf : ∀ {v : Value}, v.scalar → v.payload = [] → Notifiable v →
                v.count < 2 ^ 32 → Spells v.tag h →
                  Ends (.ok (h ++ tail)) (notificationReadObject (fuel + 1) (.ok (h ++ tail))) := by
              intro v hv hpayload hok hcount hs
              have hread := notificationReadObject_scalar hv hok hcount hs tail fuel
              rw [hpayload, List.nil_append] at hread
              exact ⟨_, _, hread, htail⟩
            cases t with
            | nil => exact @leaf .nil rfl rfl trivial (by decide) hs
            | bool v => exact @leaf (.bool v) rfl rfl trivial (by simp [Value.count]) hs
            | uint n => exact @leaf (.uint n) rfl rfl trivial (by simp [Value.count]) hs
            | int n => exact @leaf (.int n) rfl rfl trivial (by simp [Value.count]) hs
            | float bits => exact @leaf (.float bits) rfl rfl trivial (by simp [Value.count]) hs
            | double bits => exact @leaf (.double bits) rfl rfl trivial (by simp [Value.count]) hs
            | str n =>
                rw [notificationReadObject, mpackPeekTag_spells hs]
                exact ⟨_, _, rfl, htail.trans (notificationReadStr_follows hs tail)⟩
            | bin n =>
                rw [notificationReadObject, mpackPeekTag_spells hs]
                exact ⟨_, _, rfl, htail.trans (notificationReadBin_follows hs tail)⟩
            | array n =>
                rw [notificationReadObject, mpackPeekTag_spells hs]
                simp only
                split
                · exact ⟨_, _, rfl, .failed _⟩
                · rename_i count reader hnotFailed hmax
                  cases reader with
                  | failed e => exact absurd rfl (hnotFailed e)
                  | ok tail' =>
                      obtain ⟨h', hs', -, heq⟩ := mpackExpectArrayMax_sound hmax
                      have hpos := spells_length_pos hs'
                      have hlt : mpackReaderRemaining (.ok tail') < fuel := by
                        rw [heq, mpackReaderRemaining, List.length_append] at hfuel
                        rw [mpackReaderRemaining]
                        omega
                      obtain ⟨arr, reader', hloop, hfollows⟩ :=
                        @notificationReadElements_ends true _ _ (fun _ h => ih h) count.toNat _
                          hlt []
                      have hstart : (Reader.ok (h ++ tail)).Follows reader' :=
                        (Reader.Follows.suffix rfl (heq ▸ List.suffix_append h' tail')).trans
                          hfollows
                      simp only [hloop, bind, Except.bind]
                      split
                      · rename_i hpair
                        exact ⟨_, _, rfl, (Prod.mk.inj hpair).2 ▸ hstart⟩
                      · rename_i hpair
                        exact ⟨_, _, rfl, (Prod.mk.inj hpair).2 ▸ hstart⟩
            | map n =>
                rw [notificationReadObject, mpackPeekTag_spells hs]
                exact ⟨_, _, rfl, mpackReaderFlagError_follows _ _ _⟩
          · rw [notificationReadObject, hpeek]
            exact ⟨_, _, rfl, .failed e⟩

/-! ## Frames -/

/-- The notification that a value `[2, method, params]` of the accepted grammar denotes. -/
def NotificationOf (v : Value) (n : Notification) : Prop :=
  ∃ (type : Value) (method : Bytes) (params : List Value),
    v = .array [type, .str method, .array params] ∧ type.norm = .uint 2 ∧
    method.length ≤ 4095 ∧ 0 ∉ method ∧ params.length ≤ 4096 ∧
    (∀ p ∈ params, p.Everywhere Notifiable) ∧
    n = { type := hazeRpcNotification, method := some (.ofBytes method),
          params := some (params.map Object.ofValue) }

/-- The bytes of a frame up to and including the header of its params. -/
def NotificationHeader (method : Bytes) (count : UInt32) (h : Bytes) : Prop :=
  ∃ type hArr hType hMethod hParams, Spells (.array 3) hArr ∧
    (type.norm = .uint 2 ∧ Spells type hType) ∧
    (Spells (.str (.ofNat method.length)) hMethod ∧ method.length ≤ 4095 ∧ 0 ∉ method) ∧
    (Spells (.array count) hParams ∧ count ≤ notificationMaxParams) ∧
    h = hArr ++ (hType ++ (hMethod ++ method ++ hParams))

theorem notificationUnmarshalHeader_complete {method h : Bytes} {count : UInt32}
    (hh : NotificationHeader method count h) (rest : Bytes) :
    notificationUnmarshalHeader (h ++ rest) =
      some ({ notificationNew with method := some (.ofBytes method) }, count, .ok rest) := by
  obtain ⟨type, hArr, hType, hMethod, hParams, harr, ⟨hnorm, htype⟩, ⟨hmethod, hlen, hnul⟩,
    ⟨hparams, hmax⟩, rfl⟩ := hh
  have hcstr : mpackExpectCstrAlloc (.ok (hMethod ++ method ++ (hParams ++ rest)))
      notificationMaxMethodSize = (some method, .ok (hParams ++ rest)) :=
    @mpackExpectCstrAlloc_spells notificationMaxMethodSize _ _ hmethod hlen hnul _
  have htwo : hazeRpcNotification.toUInt64 = 2 := rfl
  rw [notificationUnmarshalHeader, mpackReaderInitData]
  simp only [List.append_assoc] at hcstr ⊢
  simp only [mpackExpectArrayMax_spells harr (UInt32.le_refl 3), htwo,
    mpackExpectUintMatch_spells htype hnorm, hcstr, mpackExpectArrayMax_spells hparams hmax,
    mpackReaderError_ok]
  rfl

theorem notificationUnmarshalHeader_sound {b : Bytes} {n : Notification} {count : UInt32}
    {reader : Reader} (hrun : notificationUnmarshalHeader b = some (n, count, reader)) :
    ∃ method h rest, b = h ++ rest ∧ NotificationHeader method count h ∧ reader = .ok rest ∧
      n = { notificationNew with method := some (.ofBytes method) } := by
  rw [notificationUnmarshalHeader, mpackReaderInitData] at hrun
  cases harray : mpackExpectArrayMax (.ok b) 3 with
  | mk three r₁ =>
      simp only [harray] at hrun
      split_ifs at hrun with herr₁ herr₂
      obtain ⟨hok₁, rfl⟩ := (not_or.mp herr₁).imp not_not.mp not_not.mp
      obtain ⟨b₁, rfl⟩ := mpackReaderError_eq_none hok₁
      obtain ⟨hArr, harr, -, rfl⟩ := mpackExpectArrayMax_sound harray
      obtain ⟨b₂, hmatch⟩ := mpackReaderError_eq_none (not_not.mp herr₂)
      obtain ⟨type, hType, htype, hnorm, rfl⟩ := mpackExpectUintMatch_sound hmatch
      rw [hmatch] at hrun
      split at hrun
      · cases hrun
      · rename_i method r₃ hcstr
        split_ifs at hrun with herr₃ herr₄
        obtain ⟨b₃, rfl⟩ := mpackReaderError_eq_none (not_not.mp herr₃)
        obtain ⟨hMethod, hmethod, hlen, hnul, rfl⟩ := mpackExpectCstrAlloc_sound hcstr
        cases hcount : mpackExpectArrayMax (.ok b₃) notificationMaxParams with
        | mk paramCount r₄ =>
            simp only [hcount] at hrun herr₄
            obtain ⟨b₄, rfl⟩ := mpackReaderError_eq_none (not_not.mp herr₄)
            obtain ⟨hParams, hparams, hmax, rfl⟩ := mpackExpectArrayMax_sound hcount
            simp only [Option.some.injEq, Prod.mk.injEq] at hrun
            obtain ⟨rfl, rfl, rfl⟩ := hrun
            exact ⟨method, _, b₄, by simp only [List.append_assoc], ⟨type, hArr, hType, hMethod,
              hParams, harr, ⟨hnorm, htype⟩, ⟨hmethod, hlen, hnul⟩, ⟨hparams, hmax⟩, rfl⟩, rfl,
              rfl⟩

theorem notificationHeader_ne_nil {method h : Bytes} {count : UInt32}
    (hh : NotificationHeader method count h) : h ≠ [] := by
  obtain ⟨_, hArr, _, _, _, harr, -, -, -, rfl⟩ := hh
  exact List.append_ne_nil_of_left_ne_nil (spells_ne_nil harr) _

/-- A frame is a header followed by its parameters. -/
theorem notificationFrame_iff {frame : Bytes} {n : Notification} :
    (∃ v, Encodes v frame ∧ NotificationOf v n) ↔
      ∃ method h params body, frame = h ++ body ∧
        NotificationHeader method (.ofNat params.length) h ∧ params.length ≤ 4096 ∧
        EncodesAll params body ∧ (∀ p ∈ params, p.Everywhere Notifiable) ∧
        n = { type := hazeRpcNotification, method := some (.ofBytes method),
              params := some (params.map Object.ofValue) } := by
  constructor
  · rintro ⟨_, hv, type, method, params, rfl, hnorm, hlen, hnul, hcount, hparams, rfl⟩
    obtain ⟨hArr, tail, harr, -, htail, rfl⟩ := encodes_iff.mp hv
    obtain ⟨bType, tail, rfl, hbType, htail⟩ := encodesAll_cons_iff.mp htail
    obtain ⟨bMethod, bParams, rfl, hbMethod, hbParams⟩ := encodesAll_cons_iff.mp htail
    obtain ⟨hMethod, rest, hmethod, -, hrest, rfl⟩ := encodes_iff.mp hbMethod
    obtain ⟨hParams, body, hparamsHeader, -, hbody, rfl⟩ := encodes_iff.mp hbParams
    obtain rfl := encodesAll_nil_iff.mp hrest
    obtain ⟨htag, hbType⟩ := spells_of_norm_uint hnorm hbType
    have hmax : UInt32.ofNat params.length ≤ notificationMaxParams := by
      rw [UInt32.le_iff_toNat_le, UInt32.toNat_ofNat_of_lt' (Nat.lt_of_le_of_lt hcount (by decide))]
      exact hcount
    exact ⟨method, _, params, body, by simp [Value.payload], ⟨_, hArr, bType, hMethod, hParams,
      harr, ⟨htag, hbType⟩, ⟨hmethod, hlen, hnul⟩, ⟨hparamsHeader, hmax⟩, rfl⟩, hcount, hbody,
      hparams, rfl⟩
  · rintro ⟨method, _, params, body, rfl, ⟨type, hArr, hType, hMethod, hParams, harr,
      ⟨hnorm, htype⟩, ⟨hmethod, hlen, hnul⟩, ⟨hparamsHeader, -⟩, rfl⟩, hcount, hbody, hparams, rfl⟩
    obtain ⟨v, hv, hbType⟩ := encodes_of_norm_uint hnorm htype
    have hbMethod : Encodes (.str method) (hMethod ++ method) :=
      @encodes_of_scalar (.str method) _ rfl hmethod (by simp [Value.count]; omega)
    have hbParams : Encodes (.array params) (hParams ++ body) :=
      encodes_iff.mpr ⟨hParams, body, hparamsHeader, by simp [Value.count]; omega, hbody, by
        simp [Value.payload]⟩
    refine ⟨.array [v, .str method, .array params], ?_, v, method, params, rfl, hv, hlen, hnul,
      hcount, hparams, rfl⟩
    refine encodes_iff.mpr ⟨hArr, hType ++ (hMethod ++ method ++ (hParams ++ body)), harr,
      by simp [Value.count], ?_, by simp [Value.payload]⟩
    exact encodesAll_cons_iff.mpr ⟨_, _, rfl, hbType, encodesAll_cons_iff.mpr
      ⟨_, _, rfl, hbMethod, hbParams⟩⟩

/-- A buffer with a whole header is read on by the parameter loop. -/
theorem notificationUnmarshal_of_header {method h : Bytes} {count : UInt32}
    (hh : NotificationHeader method count h) (rest : Bytes) :
    notificationUnmarshal (h ++ rest) = do
      match ← notificationReadElements false (notificationReadObject ((h ++ rest).length + 1))
          count.toNat (.ok rest) [] with
      | (none, _) => return none
      | (some params, reader) =>
        if mpackReaderError reader ≠ none then return none
        return some { type := hazeRpcNotification, method := some (.ofBytes method),
                      params := some params } := by
  have hne : ¬(h ++ rest).length = 0 := fun h0 =>
    List.append_ne_nil_of_left_ne_nil (notificationHeader_ne_nil hh) rest
      (List.length_eq_zero_iff.mp h0)
  rw [notificationUnmarshal, if_neg hne, notificationUnmarshalHeader_complete hh]
  rfl

/-- `NotificationUnmarshal` ends on every buffer. -/
theorem notificationUnmarshal_total (b : Bytes) : ∃ out, notificationUnmarshal b = .ok out := by
  cases hheader : notificationUnmarshalHeader b with
  | none =>
      rw [notificationUnmarshal, hheader]
      split_ifs <;> exact ⟨none, rfl⟩
  | some start =>
      obtain ⟨n, count, reader⟩ := start
      obtain ⟨method, h, rest, rfl, hh, rfl, -⟩ := notificationUnmarshalHeader_sound hheader
      have hlt : mpackReaderRemaining (.ok rest) < (h ++ rest).length + 1 := by
        rw [mpackReaderRemaining, List.length_append]
        omega
      obtain ⟨params, reader, hloop, -⟩ := @notificationReadElements_ends false _ _
        (fun _ h => notificationReadObject_ends _ h) count.toNat _ hlt []
      rw [notificationUnmarshal_of_header hh, hloop]
      cases params with
      | none => exact ⟨none, rfl⟩
      | some params =>
          simp only [bind, Except.bind]
          split_ifs <;> exact ⟨_, rfl⟩

/-- A notification that comes back was read from a header and its parameters. -/
theorem notificationUnmarshal_sound {b : Bytes} {n : Notification}
    (hrun : notificationUnmarshal b = .ok (some n)) :
    ∃ v frame rest, b = frame ++ rest ∧ Encodes v frame ∧ NotificationOf v n := by
  cases hheader : notificationUnmarshalHeader b with
  | none =>
      rw [notificationUnmarshal, hheader] at hrun
      split_ifs at hrun <;> cases hrun
  | some start =>
      obtain ⟨n', count, reader⟩ := start
      obtain ⟨method, h, rest, rfl, hh, rfl, -⟩ := notificationUnmarshalHeader_sound hheader
      rw [notificationUnmarshal_of_header hh] at hrun
      obtain ⟨⟨params, reader⟩, hloop, hrest⟩ := bind_eq_ok.mp hrun
      cases params with
      | none => cases hrest
      | some params =>
          simp only at hrest
          split_ifs at hrest with herr
          · cases hrest
          · obtain rfl := Option.some.inj (Except.ok.inj hrest)
            obtain ⟨rest', rfl⟩ := mpackReaderError_eq_none (not_not.mp herr)
            obtain ⟨vs, body, rfl, hlen, hbody, hvs, rfl⟩ := notificationReadElements_sound
              (fun _ _ _ => notificationReadObject_failed)
              (fun _ _ _ => notificationReadObject_sound _) hloop
            have hcount : vs.length ≤ 4096 := by
              obtain ⟨_, _, _, _, _, -, -, -, ⟨-, hmax⟩, -⟩ := hh
              exact hlen ▸ UInt32.le_iff_toNat_le.mp hmax
            rw [← UInt32.ofNat_toNat (x := count), ← hlen] at hh
            obtain ⟨v, hv, hof⟩ := notificationFrame_iff.mpr ⟨method, h, vs, body, rfl, hh, hcount,
              hbody, hvs, rfl⟩
            exact ⟨v, h ++ body, rest', (List.append_assoc _ _ _).symm, hv, hof⟩

/-- Every frame is read as the notification it denotes, whatever follows it. -/
theorem notificationUnmarshal_complete {v : Value} {frame : Bytes} {n : Notification}
    (hv : Encodes v frame) (hn : NotificationOf v n) (rest : Bytes) :
    notificationUnmarshal (frame ++ rest) = .ok (some n) := by
  obtain ⟨method, h, params, body, rfl, hh, hcount, hbody, hparams, rfl⟩ :=
    notificationFrame_iff.mp ⟨v, hv, hn⟩
  have hto : (UInt32.ofNat params.length).toNat = params.length :=
    UInt32.toNat_ofNat_of_lt' (Nat.lt_of_le_of_lt hcount (by decide))
  have hloop : notificationReadElements false
      (notificationReadObject ((h ++ (body ++ rest)).length + 1)) params.length
      (.ok (body ++ rest)) [] = .ok (some (params.map Object.ofValue), .ok rest) :=
    notificationReadElements_complete false hbody rest (fun p hp b rest hb hle =>
      notificationReadObject_complete (hparams p hp) hb rest (by
        simp only [List.length_append]
        omega)) []
  rw [List.append_assoc, notificationUnmarshal_of_header hh, hto, hloop]
  rfl

/-- The buffers that are accepted are those with an encoding of `[2, method, params]` in
front, and the notification is the one it denotes. -/
theorem notificationUnmarshal_accepts_iff (b : Bytes) :
    (∃ out, notificationUnmarshal b = .ok out) ∧ ∀ n, notificationUnmarshal b = .ok (some n) ↔
      ∃ v frame rest, b = frame ++ rest ∧ Encodes v frame ∧ NotificationOf v n := by
  refine ⟨notificationUnmarshal_total b, fun n => ⟨notificationUnmarshal_sound, ?_⟩⟩
  rintro ⟨v, frame, rest, rfl, hv, hn⟩
  exact notificationUnmarshal_complete hv hn rest

end Haze
