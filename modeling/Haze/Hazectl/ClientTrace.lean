import Haze.Hazectl.Client

/-
  What the actions of a run say about one call: how often it wrote, how often its channel
  was sent to, and whether its entry in `pending` can still be found.

  A call is stranded (`Stranded`) when it registered after the read loop had closed what
  was pending, or when another call with the same number overwrote or deleted its entry.
-/

open Msgpack

namespace Haze.Hazectl

/-! ## Actions of one call -/

def Action.IsWrite (i : Nat) : Action → Prop
  | .write j => j = i
  | _ => False

def Action.IsSend (i : Nat) : Action → Prop
  | .send j _ => j = i
  | _ => False

def Action.Registers (i : Nat) : Action → Prop
  | .register j _ => j = i
  | _ => False

/-- Another call finds the entry of the call under its own number, and it is gone. -/
def Action.Displaces (i : Nat) : Action → Prop
  | .register j found => found = some i ∧ j ≠ i
  | .remove j found => found = some i ∧ j ≠ i
  | _ => False

/-- The action is one of the call, a send to it, or finds its entry. -/
def Action.Touches (i : Nat) : Action → Prop
  | .register j found => j = i ∨ found = some i
  | .remove j found => j = i ∨ found = some i
  | .marshal j | .write j | .writeFails j _ _ | .receive j _ | .send j _ => j = i
  | _ => False

instance (i : Nat) : DecidablePred (Action.IsWrite i) := fun a => by
  cases a <;> unfold Action.IsWrite <;> infer_instance

instance (i : Nat) : DecidablePred (Action.IsSend i) := fun a => by
  cases a <;> unfold Action.IsSend <;> infer_instance

/-- How often the call wrote its payload. -/
def writes (acts : List Action) (i : Nat) : Nat := acts.countP (Action.IsWrite i)

/-- How often the call's channel was sent to. -/
def sends (acts : List Action) (i : Nat) : Nat := acts.countP (Action.IsSend i)

/-! ## Stranded calls -/

/-- The call registers behind the close of what was pending. -/
def Late (acts : List Action) (i : Nat) : Prop :=
  ∃ front rest, acts = front ++ .closeAll :: rest ∧ ∃ a ∈ rest, a.Registers i

def Stranded (acts : List Action) (i : Nat) : Prop :=
  Late acts i ∨ ∃ a ∈ acts, a.Displaces i

variable {acts : List Action} {a : Action} {i : Nat}

theorem late_concat : Late (acts ++ [a]) i ↔ Late acts i ∨ .closeAll ∈ acts ∧ a.Registers i := by
  unfold Late
  constructor
  · intro h
    obtain ⟨front, rest, heq, b, hb, hreg⟩ := h
    rcases List.eq_nil_or_concat rest with rfl | ⟨rest, last, rfl⟩
    · cases hb
    · rw [List.concat_eq_append, ← List.cons_append, ← List.append_assoc] at heq
      obtain ⟨rfl, hlast⟩ := List.append_inj' heq rfl
      obtain rfl := List.singleton_inj.mp hlast
      rw [List.concat_eq_append, List.mem_append, List.mem_singleton] at hb
      rcases hb with hb | rfl
      · exact .inl ⟨front, rest, rfl, b, hb, hreg⟩
      · exact .inr ⟨by simp, hreg⟩
  · intro h
    rcases h with ⟨front, rest, rfl, b, hb, hreg⟩ | ⟨hclose, hreg⟩
    · exact ⟨front, rest ++ [a], by simp, b, List.mem_append_left _ hb, hreg⟩
    · obtain ⟨front, rest, rfl⟩ := List.append_of_mem hclose
      exact ⟨front, rest ++ [a], by simp, a, by simp, hreg⟩

theorem stranded_concat : Stranded (acts ++ [a]) i ↔
    Stranded acts i ∨ .closeAll ∈ acts ∧ a.Registers i ∨ a.Displaces i := by
  have hdisplaced : (∃ b ∈ acts ++ [a], b.Displaces i) ↔
      (∃ b ∈ acts, b.Displaces i) ∨ a.Displaces i := by
    simp only [List.mem_append, List.mem_singleton, or_and_right, exists_or, exists_eq_left]
  unfold Stranded
  rw [late_concat, hdisplaced, or_or_or_comm]

@[simp] theorem not_stranded_nil : ¬Stranded [] i := by
  intro h
  rcases h with ⟨front, rest, heq, -⟩ | ⟨b, hb, -⟩
  · simp at heq
  · cases hb

/-! ## One more action -/

theorem writes_self (h : a.IsWrite i) : writes (acts ++ [a]) i = writes acts i + 1 := by
  unfold writes
  rw [List.countP_append, List.countP_singleton, if_pos (decide_eq_true h)]

theorem writes_other (h : ¬a.IsWrite i) : writes (acts ++ [a]) i = writes acts i := by
  unfold writes
  rw [List.countP_append, List.countP_singleton, if_neg (by simpa using h), Nat.add_zero]

theorem sends_self (h : a.IsSend i) : sends (acts ++ [a]) i = sends acts i + 1 := by
  unfold sends
  rw [List.countP_append, List.countP_singleton, if_pos (decide_eq_true h)]

theorem sends_other (h : ¬a.IsSend i) : sends (acts ++ [a]) i = sends acts i := by
  unfold sends
  rw [List.countP_append, List.countP_singleton, if_neg (by simpa using h), Nat.add_zero]

theorem stranded_other (hreg : ¬a.Registers i) (hdis : ¬a.Displaces i) :
    Stranded (acts ++ [a]) i ↔ Stranded acts i := by
  have hlate : ¬(.closeAll ∈ acts ∧ a.Registers i) := fun h => hreg h.2
  rw [stranded_concat, or_iff_left hdis, or_iff_left hlate]

/-! ## More actions -/

theorem Stranded.append (h : Stranded acts i) (more : List Action) :
    Stranded (acts ++ more) i := by
  rcases h with ⟨front, rest, rfl, b, hb, hreg⟩ | ⟨b, hb, hdis⟩
  · exact .inl ⟨front, rest ++ more, by simp, b, List.mem_append_left _ hb, hreg⟩
  · exact .inr ⟨b, List.mem_append_left _ hb, hdis⟩

theorem writes_append_le (acts more : List Action) (i : Nat) :
    writes acts i ≤ writes (acts ++ more) i :=
  (List.sublist_append_left acts more).countP_le

/-! ## Actions that do not touch the call -/

theorem Action.not_isWrite (h : ¬a.Touches i) : ¬a.IsWrite i := by
  cases a <;> first | exact id | exact h

theorem Action.not_isSend (h : ¬a.Touches i) : ¬a.IsSend i := by
  cases a <;> first | exact id | exact h

theorem Action.not_registers (h : ¬a.Touches i) : ¬a.Registers i := by
  cases a with
  | register => exact fun hi => h (.inl hi)
  | _ => exact id

theorem Action.not_displaces (h : ¬a.Touches i) : ¬a.Displaces i := by
  cases a with
  | register => exact fun hi => h (.inr hi.1)
  | remove => exact fun hi => h (.inr hi.1)
  | _ => exact id

/-- So they change none of this. -/
theorem writes_quiet (h : ¬a.Touches i) : writes (acts ++ [a]) i = writes acts i :=
  writes_other (Action.not_isWrite h)

theorem sends_quiet (h : ¬a.Touches i) : sends (acts ++ [a]) i = sends acts i :=
  sends_other (Action.not_isSend h)

theorem stranded_quiet (h : ¬a.Touches i) : Stranded (acts ++ [a]) i ↔ Stranded acts i :=
  stranded_other (Action.not_registers h) (Action.not_displaces h)

/-- A call that no action touches did nothing and is not stranded. -/
theorem untouched (h : ∀ a ∈ acts, ¬a.Touches i) :
    writes acts i = 0 ∧ sends acts i = 0 ∧ ¬Stranded acts i := by
  induction acts using List.reverseRecOn with
  | nil => exact ⟨rfl, rfl, not_stranded_nil⟩
  | append_singleton acts a ih =>
      have hquiet : ¬a.Touches i := h a (by simp)
      obtain ⟨hwrites, hsends, hfree⟩ := ih fun b hb => h b (List.mem_append_left _ hb)
      rw [writes_quiet hquiet, sends_quiet hquiet, stranded_quiet hquiet]
      exact ⟨hwrites, hsends, hfree⟩

end Haze.Hazectl
