import Haze.Collections.Heap
import Haze.Object
import Mathlib

/-
  `PathsJoin`: components joined with separators in a buffer of 4096 bytes.

  A separator is written where the terminator of the text was, and only then is the component
  that follows it measured. When that component does not fit, the loop is left and nothing
  terminates the text: behind the separator are bytes that were never written. `pathsText` is
  what the function returns. It is the join of the longest prefix of the components that fits
  exactly when the loop is not left behind a separator (`pathsJoin_joinsLongest_iff`). The
  result of `strdup` on bytes that were never written is not followed: it is undefined.
-/

open Collections Msgpack

namespace Haze

/-! ## The buffer -/

/-- `PATH_SEP`. -/
def pathSep (windows : Bool) : UInt8 := if windows then 0x5c else 0x2f

def pathsBufferSize : Nat := 4096

/-- The locals of `PathsJoin`. -/
structure PathsJoin where
  buffer : Block UInt8
  length : Nat

/-- The separator that is written where the text has none at its end. -/
def PathsJoin.separate (sep : UInt8) (st : PathsJoin) : Option PathsJoin :=
  if 0 < st.length then do
    let last ← st.buffer[st.length - 1]?.join
    if last ≠ sep then
      let buffer ← st.buffer.store st.length [some sep]
      return { buffer := buffer, length := st.length + 1 }
    else return st
  else some st

/-- The loop over the components. A read or a write outside of the buffer is undefined, and so
is the read of a byte that was never written. -/
def PathsJoin.loop (sep : UInt8) (st : PathsJoin) : List CString → Option PathsJoin
  | [] => some st
  | current :: args => do
    let st ← st.separate sep
    let size := current.strlen
    if pathsBufferSize - 1 ≤ st.length + size then return st
    else
      let buffer ← st.buffer.store st.length (current.bytes.map some)
      let length := st.length + size
      let buffer ← buffer.store length [some 0]
      loop sep { buffer := buffer, length := length } args

/-- `strdup`: the bytes up to the first NUL. -/
def strdup : Block UInt8 → Option Bytes
  | some b :: block => if b = 0 then some [] else (strdup block).map (b :: ·)
  | _ => none

def pathsJoin (sep : UInt8) (path : List CString) : Option Bytes := do
  let buffer ← Block.store (.fresh pathsBufferSize) 0 [some 0]
  let st ← PathsJoin.loop sep { buffer := buffer, length := 0 } path
  strdup st.buffer

/-! ## The join -/

/-- The text is not empty, and does not end in a separator. -/
def NeedsSep (sep : UInt8) (text : Bytes) : Prop := text ≠ [] ∧ text.getLast? ≠ some sep

instance (sep : UInt8) (text : Bytes) : Decidable (NeedsSep sep text) :=
  inferInstanceAs (Decidable (_ ∧ _))

/-- The text with another component. -/
def joinStep (sep : UInt8) (text component : Bytes) : Bytes :=
  if NeedsSep sep text then text ++ sep :: component else text ++ component

/-- The components joined behind a text. -/
def joined (sep : UInt8) (text : Bytes) (components : List Bytes) : Bytes :=
  components.foldl (joinStep sep) text

/-- What is returned for the components behind a text. -/
def pathsText (sep : UInt8) (text : Bytes) : List Bytes → Option Bytes
  | [] => some text
  | component :: components =>
    if (joinStep sep text component).length + 1 < pathsBufferSize then
      pathsText sep (joinStep sep text component) components
    else if NeedsSep sep text then none
    else some text

/-! ## What the buffer holds -/

/-- A buffer with a text, one more byte, and nothing written behind it. -/
def textBuffer (text : Bytes) (b : Option UInt8) : Block UInt8 :=
  text.map some ++ b :: Block.fresh (pathsBufferSize - 1 - text.length)

theorem store_textBuffer (text component : Bytes) (b : Option UInt8)
    (hfits : text.length + component.length < pathsBufferSize) :
    (textBuffer text b).store text.length (component.map some) =
      some (textBuffer (text ++ component) (if component = [] then b else none)) := by
  have hroom : (component.map some).length ≤
      (b :: Block.fresh (pathsBufferSize - 1 - text.length)).length := by
    simp [Block.fresh]
    omega
  have hstore := Block.store_append (text.map some) hroom
  rw [List.length_map] at hstore
  rw [textBuffer, hstore]
  cases component with
  | nil => simp [textBuffer]
  | cons c component =>
      have hrest : pathsBufferSize - 1 - text.length - component.length =
          pathsBufferSize - 1 - (text ++ c :: component).length + 1 := by
        rw [List.length_cons] at hfits
        rw [List.length_append, List.length_cons]
        omega
      rw [List.length_map, List.length_cons, List.drop_succ_cons, Block.fresh, List.drop_replicate,
        hrest, List.replicate_succ, textBuffer, List.map_append, List.append_assoc,
        if_neg (List.cons_ne_nil c component)]
      rfl

theorem terminate_textBuffer (text : Bytes) (b : Option UInt8) :
    (textBuffer text b).store text.length [some 0] = some (textBuffer text (some 0)) := by
  unfold textBuffer
  have hroom : [some (0 : UInt8)].length ≤
      (b :: Block.fresh (pathsBufferSize - 1 - text.length)).length := by
    simp
  have hstore := Block.store_append (text.map some) hroom
  rwa [List.length_map] at hstore

theorem strdup_map {text : Bytes} (hnul : 0 ∉ text) (block : Block UInt8) :
    strdup (text.map some ++ block) = (strdup block).map (text ++ ·) := by
  induction text with
  | nil => simp
  | cons b text ih =>
      obtain ⟨hb, htext⟩ := not_or.mp (mt List.mem_cons.mpr hnul)
      rw [List.map_cons, List.cons_append, strdup, if_neg (Ne.symm hb), ih htext, Option.map_map]
      rfl

theorem strdup_terminated {text : Bytes} (hnul : 0 ∉ text) :
    strdup (textBuffer text (some 0)) = some text := by
  unfold textBuffer
  rw [strdup_map hnul, strdup, if_pos rfl, Option.map_some, List.append_nil]

theorem strdup_unterminated {text : Bytes} (hnul : 0 ∉ text) :
    strdup (textBuffer text none) = none := by
  unfold textBuffer
  rw [strdup_map hnul]
  rfl

section Loop

variable {sep : UInt8} {text : Bytes}

/-- The last byte of a text is read where it is. -/
theorem last_textBuffer (hne : text ≠ []) (b : Option UInt8) :
    (textBuffer text b)[text.length - 1]?.join = text.getLast? := by
  have hpos := List.length_pos_iff.mpr hne
  unfold textBuffer
  rw [List.getElem?_append_left (by rw [List.length_map]; omega), List.getElem?_map,
    List.getLast?_eq_getElem?, List.getElem?_eq_getElem (by omega)]
  rfl

/-- A separator takes the place of the terminator. -/
theorem separate_textBuffer (sep : UInt8) (hfits : text.length + 1 < pathsBufferSize) :
    PathsJoin.separate sep { buffer := textBuffer text (some 0), length := text.length } =
      some { buffer := textBuffer (joinStep sep text [])
              (if NeedsSep sep text then none else some 0)
             length := (joinStep sep text []).length } := by
  unfold PathsJoin.separate joinStep
  by_cases hne : text = []
  · have hneeds : ¬NeedsSep sep text := fun hneeds => hneeds.1 hne
    rw [if_neg hneeds, if_neg hneeds, if_neg (by rw [hne]; exact Nat.not_lt_zero 0),
      List.append_nil]
  · obtain ⟨last, hlast⟩ := Option.isSome_iff_exists.mp (List.getLast?_isSome.mpr hne)
    rw [if_pos (List.length_pos_iff.mpr hne), last_textBuffer hne, hlast]
    simp only [Option.bind_eq_bind, Option.bind_some]
    by_cases hsep : last = sep
    · have hneeds : ¬NeedsSep sep text := fun hneeds => hneeds.2 (hsep ▸ hlast)
      rw [if_neg hneeds, if_neg hneeds, if_neg (not_not.mpr hsep), List.append_nil]
      rfl
    · have hneeds : NeedsSep sep text :=
        ⟨hne, fun heq => hsep (Option.some.inj (hlast.symm.trans heq))⟩
      have hstore := store_textBuffer text [sep] (some 0) hfits
      rw [if_neg (List.cons_ne_nil sep [])] at hstore
      rw [if_pos hneeds, if_pos hneeds, if_pos hsep]
      show (Block.store _ _ ([sep].map some) >>= _) = _
      rw [hstore, List.length_append]
      rfl

theorem length_joinStep (sep : UInt8) (text component : Bytes) :
    (joinStep sep text component).length = (joinStep sep text []).length + component.length := by
  unfold joinStep
  split_ifs
  · simp
    omega
  · simp

/-- The text behind which a component is copied. -/
theorem joinStep_eq_append (sep : UInt8) (text component : Bytes) :
    joinStep sep text component = joinStep sep text [] ++ component := by
  unfold joinStep
  split_ifs <;> simp

theorem nulFree_joinStep (hsep : sep ≠ 0) {component : Bytes} (htext : 0 ∉ text)
    (hcomponent : 0 ∉ component) : 0 ∉ joinStep sep text component := by
  unfold joinStep
  split_ifs <;> simp [htext, hcomponent, hsep.symm]

/-- The loop, from a terminated text, returns what `pathsText` says. -/
theorem loop_textBuffer (hsep : sep ≠ 0) (hnul : 0 ∉ text)
    (hfits : text.length + 1 < pathsBufferSize) (args : List CString) :
    ((PathsJoin.loop sep { buffer := textBuffer text (some 0), length := text.length } args).bind
      fun st => strdup st.buffer) = pathsText sep text (args.map CString.bytes) := by
  induction args generalizing text with
  | nil => exact strdup_terminated hnul
  | cons current args ih =>
      have hlen := length_joinStep sep text current.bytes
      have hstrlen : current.strlen = current.bytes.length := rfl
      rw [List.map_cons, pathsText, PathsJoin.loop, separate_textBuffer sep hfits]
      simp only [Option.bind_eq_bind, Option.bind_some]
      by_cases hfits' : (joinStep sep text current.bytes).length + 1 < pathsBufferSize
      · have happend := joinStep_eq_append sep text current.bytes
        have hcopy := store_textBuffer (joinStep sep text []) current.bytes
          (if NeedsSep sep text then none else some 0) (by omega)
        rw [if_pos hfits', if_neg (by omega), hcopy, ← happend]
        simp only [Option.bind_some]
        rw [hstrlen, ← hlen, terminate_textBuffer]
        exact ih (nulFree_joinStep hsep hnul current.nulFree) hfits'
      · have hnul' : 0 ∉ joinStep sep text [] := nulFree_joinStep hsep hnul List.not_mem_nil
        rw [if_neg hfits', if_pos (by omega)]
        show strdup (textBuffer _ _) = _
        split_ifs with hneeds
        · exact strdup_unterminated hnul'
        · rw [strdup_terminated hnul', joinStep, if_neg hneeds, List.append_nil]

end Loop

theorem pathsJoin_eq {sep : UInt8} (hsep : sep ≠ 0) (path : List CString) :
    pathsJoin sep path = pathsText sep [] (path.map CString.bytes) := by
  have hroom : [some (0 : UInt8)].length ≤ (Block.fresh pathsBufferSize : Block UInt8).length := by
    rw [Block.fresh, List.length_replicate]
    decide
  have hstart : Block.store (.fresh pathsBufferSize) 0 [some 0] =
      some (textBuffer [] (some 0)) := by
    have hstore := Block.store_append [] hroom
    rw [Block.fresh, List.drop_replicate] at hstore
    exact hstore
  unfold pathsJoin
  rw [hstart]
  exact loop_textBuffer hsep List.not_mem_nil (by decide) path

/-! ## The longest prefix -/

section Prefix

variable {sep : UInt8} {text : Bytes} {components : List Bytes}

theorem length_le_joined (sep : UInt8) (text : Bytes) (components : List Bytes) :
    text.length ≤ (joined sep text components).length := by
  induction components generalizing text with
  | nil => exact Nat.le_refl _
  | cons component components ih =>
      have hstep := length_joinStep sep text component
      have hstart := length_joinStep sep text []
      have hle : text.length ≤ (joinStep sep text []).length := by
        unfold joinStep
        split_ifs <;> simp
      have hrest : (joinStep sep text component).length ≤
          (joined sep (joinStep sep text component) components).length := ih _
      show _ ≤ (joined sep (joinStep sep text component) components).length
      omega

/-- A longer prefix has a longer join. -/
theorem length_joined_take_le (sep : UInt8) (text : Bytes) (components : List Bytes) {j k : Nat}
    (hjk : j ≤ k) :
    (joined sep text (components.take j)).length ≤
      (joined sep text (components.take k)).length := by
  have htake : components.take k = components.take j ++ (components.take k).drop j := by
    conv_lhs => rw [← List.take_append_drop j (components.take k), List.take_take,
      Nat.min_eq_left hjk]
  unfold joined
  rw [htake, List.foldl_append]
  exact length_le_joined sep _ _

theorem joined_take_succ {k : Nat} {component : Bytes} (hk : components[k]? = some component) :
    joined sep text (components.take (k + 1)) =
      joinStep sep (joined sep text (components.take k)) component := by
  unfold joined
  rw [List.take_add_one, hk, Option.toList_some, List.foldl_append]
  rfl

/-- The components that fit are joined, whatever is behind them. -/
theorem pathsText_take {k : Nat} (hk : k ≤ components.length)
    (hfits : (joined sep text (components.take k)).length + 1 < pathsBufferSize) :
    pathsText sep text components =
      pathsText sep (joined sep text (components.take k)) (components.drop k) := by
  induction k with
  | zero => rfl
  | succ k ih =>
      have hle := length_joined_take_le sep text components (Nat.le_add_right k 1)
      have hlast : components[k]? = some components[k] := List.getElem?_eq_getElem hk
      have hfits' := hfits
      rw [joined_take_succ hlast] at hfits'
      rw [ih (by omega) (by omega), List.drop_eq_getElem_cons hk, pathsText, if_pos hfits',
        joined_take_succ hlast]

/-- The numbers of components whose join has at most `limit` bytes. -/
def Fitting (sep : UInt8) (limit : Nat) (components : List Bytes) : Set Nat :=
  {j | j ≤ components.length ∧ (joined sep [] (components.take j)).length ≤ limit}

theorem exists_longest (sep : UInt8) (limit : Nat) (components : List Bytes) :
    ∃ k, IsGreatest (Fitting sep limit components) k := by
  let fits := fun j => (joined sep [] (components.take j)).length ≤ limit
  refine ⟨Nat.findGreatest fits components.length, ⟨Nat.findGreatest_le _, ?_⟩, ?_⟩
  · exact Nat.findGreatest_spec (P := fits) (Nat.zero_le _) (Nat.zero_le _)
  · intro j hj
    exact Nat.le_findGreatest hj.1 hj.2

end Prefix

/-- The result is the join of the longest prefix that fits. -/
def JoinsLongest (sep : UInt8) (limit : Nat) (path : List CString) : Prop :=
  ∃ k, IsGreatest (Fitting sep limit (path.map CString.bytes)) k ∧
    pathsJoin sep path = some (joined sep [] ((path.map CString.bytes).take k))

/-- Where some component does not fit in 4094 bytes, no separator comes behind the text before
it, and the text with it is longer than the limit. -/
def LeavesTerminated (sep : UInt8) (limit : Nat) (path : List CString) : Prop :=
  ∀ k, IsGreatest (Fitting sep (pathsBufferSize - 2) (path.map CString.bytes)) k →
    k < path.length →
      ¬NeedsSep sep (joined sep [] ((path.map CString.bytes).take k)) ∧
        limit < (joined sep [] ((path.map CString.bytes).take (k + 1))).length

/-- With one component more the text does not fit. -/
theorem longest_succ {sep : UInt8} {limit k : Nat} {components : List Bytes}
    (hk : IsGreatest (Fitting sep limit components) k) (hlt : k < components.length) :
    limit < (joined sep [] (components.take (k + 1))).length := by
  by_contra hle
  exact absurd (hk.2 ⟨hlt, Nat.not_lt.mp hle⟩) (Nat.not_succ_le_self k)

/-- What is returned, from the longest prefix that fits in 4094 bytes. -/
theorem pathsJoin_longest {sep : UInt8} (hsep : sep ≠ 0) {path : List CString} {k : Nat}
    (hk : IsGreatest (Fitting sep (pathsBufferSize - 2) (path.map CString.bytes)) k) :
    pathsJoin sep path =
      if k < path.length ∧ NeedsSep sep (joined sep [] ((path.map CString.bytes).take k)) then none
      else some (joined sep [] ((path.map CString.bytes).take k)) := by
  obtain ⟨hle, hfits⟩ := hk.1
  have hfits' : (joined sep [] ((path.map CString.bytes).take k)).length + 1 < pathsBufferSize := by
    unfold pathsBufferSize at hfits ⊢
    omega
  rw [pathsJoin_eq hsep, pathsText_take hle hfits']
  by_cases hlt : k < path.length
  · have hk' : k < (path.map CString.bytes).length := by rwa [List.length_map]
    have hlong := longest_succ hk hk'
    rw [joined_take_succ (List.getElem?_eq_getElem hk')] at hlong
    rw [List.drop_eq_getElem_cons hk', pathsText, if_neg (by omega)]
    simp only [hlt, true_and]
  · rw [List.drop_eq_nil_of_le (by rw [List.length_map]; omega), if_neg fun h => hlt h.1]
    rfl

/-- Whether a text of 4095 bytes counts as one that fits or not, the result is the join of the
longest prefix that does exactly when the loop ends with the last component, or leaves a
terminated text for a component that does not fit. -/
theorem pathsJoin_joinsLongest_iff (windows : Bool) (path : List CString) {limit : Nat}
    (hlimit : limit = 4094 ∨ limit = 4095) :
    JoinsLongest (pathSep windows) limit path ↔
      LeavesTerminated (pathSep windows) limit path := by
  have hsep : pathSep windows ≠ 0 := by cases windows <;> decide
  obtain ⟨k, hk⟩ := exists_longest (pathSep windows) (pathsBufferSize - 2)
    (path.map CString.bytes)
  have hjoin := pathsJoin_longest hsep hk
  have hmem : k ∈ Fitting (pathSep windows) limit (path.map CString.bytes) :=
    ⟨hk.1.1, hk.1.2.trans (by unfold pathsBufferSize; omega)⟩
  by_cases hlt : k < path.length
  swap
  · -- every component fits
    have hall : IsGreatest (Fitting (pathSep windows) limit (path.map CString.bytes)) k := by
      refine ⟨hmem, fun j hj => ?_⟩
      have hle := hj.1
      rw [List.length_map] at hle
      omega
    rw [if_neg fun h => hlt h.1] at hjoin
    refine iff_of_true ⟨k, hall, hjoin⟩ fun k' hk' hlt' => ?_
    rw [hk'.unique hk] at hlt'
    exact absurd hlt' hlt
  by_cases hneeds : NeedsSep (pathSep windows) (joined (pathSep windows) []
    ((path.map CString.bytes).take k))
  · rw [if_pos ⟨hlt, hneeds⟩] at hjoin
    refine iff_of_false (fun hlongest => ?_) fun hleaves => (hleaves k hk hlt).1 hneeds
    obtain ⟨k', -, hsome⟩ := hlongest
    rw [hjoin] at hsome
    cases hsome
  rw [if_neg fun h => hneeds h.2] at hjoin
  have hlt' : k < (path.map CString.bytes).length := by rwa [List.length_map]
  constructor
  · intro hlongest k' hk' _
    rw [hk'.unique hk]
    refine ⟨hneeds, Nat.lt_of_not_le fun hle => ?_⟩
    obtain ⟨k'', hk'', hsome⟩ := hlongest
    rw [hjoin] at hsome
    have hlen := congrArg List.length (Option.some.inj hsome)
    have hlong := longest_succ hk hlt'
    have hmono := length_joined_take_le (pathSep windows) [] (path.map CString.bytes)
      (show k + 1 ≤ k'' from hk''.2 ⟨hlt', hle⟩)
    have hfits := hk.1.2
    unfold pathsBufferSize at hlong hfits
    omega
  · intro hleaves
    obtain ⟨-, hlong⟩ := hleaves k hk hlt
    refine ⟨k, ⟨hmem, fun j hj => ?_⟩, hjoin⟩
    by_contra hgt
    have hmono := length_joined_take_le (pathSep windows) [] (path.map CString.bytes)
      (show k + 1 ≤ j from Nat.lt_of_not_le hgt)
    have hfits := hj.2
    omega

/-- A component behind a directory. -/
theorem pathsJoin_joinsLongest_home :
    JoinsLongest (pathSep false) 4095 [.ofString "/home/u", .ofString "Haze"] := by
  refine (pathsJoin_joinsLongest_iff false [.ofString "/home/u", .ofString "Haze"]
    (.inr rfl)).mpr fun k hk hlt => ?_
  -- both components fit
  have hall : 2 ∈ Fitting (pathSep false) (pathsBufferSize - 2)
      ([CString.ofString "/home/u", .ofString "Haze"].map CString.bytes) :=
    ⟨Nat.le_refl _, by decide⟩
  exact absurd hlt (Nat.not_lt.mpr (hk.2 hall))

/-- A name of 4094 bytes behind a directory leaves a separator without a terminator. -/
theorem pathsJoin_unterminated :
    ¬∀ (windows : Bool) (path : List CString),
      JoinsLongest (pathSep windows) 4094 path ∨ JoinsLongest (pathSep windows) 4095 path := by
  intro hall
  obtain ⟨name, hname⟩ := CString.exists_strlen 4094
  have hname : name.bytes.length = 4094 := hname
  have hjoin : pathsJoin (pathSep false) [.ofString "a", name] = none := by
    have hlong : ¬(joinStep (pathSep false) (joinStep (pathSep false) []
        (CString.ofString "a").bytes) name.bytes).length + 1 < pathsBufferSize := by
      have htext : (joinStep (pathSep false) (joinStep (pathSep false) []
          (CString.ofString "a").bytes) []).length = 2 := by decide
      rw [length_joinStep, htext, hname]
      decide
    rw [pathsJoin_eq (by decide), List.map_cons, List.map_cons, pathsText, if_pos (by decide),
      pathsText, if_neg hlong, if_pos (by decide)]
  rcases hall false [.ofString "a", name] with hlongest | hlongest
  · obtain ⟨k, -, hsome⟩ := hlongest
    rw [hjoin] at hsome
    cases hsome
  · obtain ⟨k, -, hsome⟩ := hlongest
    rw [hjoin] at hsome
    cases hsome

end Haze
