/-
# The player under input

Small facts about the effect of one byte on a player: which bytes leave it
alone, what happens to the flags, and that nothing depends on the messages sent.
-/

import ThreeW3.Input.Model

namespace ThreeW3.Input

variable {p q : Player} {c : UInt8}

/-- A text byte: a printable character or a line end. -/
def IsText (c : UInt8) : Prop := Printable c ∨ c = cr ∨ c = lf

instance : DecidablePred IsText := fun _ => inferInstanceAs (Decidable (_ ∨ _))

namespace IsText

private theorem ne_of_eq {d : UInt8} (hc : IsText c) (hd : ¬ IsText d) : c ≠ d := by
  rintro rfl
  exact hd hc

theorem ne_iac (hc : IsText c) : c ≠ iac := hc.ne_of_eq (by decide)

theorem not_closing (hc : IsText c) : ¬ Closing c := by
  rintro (rfl | rfl) <;> revert hc <;> decide

end IsText

/-- A stream of text bytes. -/
def Text (t : List UInt8) : Prop := ∀ c ∈ t, IsText c

instance : DecidablePred Text := fun t => List.decidableBAll IsText t

namespace Text

variable {t : List UInt8}

theorem head (ht : Text (c :: t)) : IsText c := ht c List.mem_cons_self

theorem tail (ht : Text (c :: t)) : Text t := fun d hd => ht d (List.mem_cons_of_mem c hd)

end Text

namespace Player

/-! ## Flags -/

@[simp] theorem append_lastR : (p.append c).lastR = p.lastR := by
  unfold append
  split_ifs <;> rfl

@[simp] theorem append_lastN : (p.append c).lastN = p.lastN := by
  unfold append
  split_ifs <;> rfl

@[simp] theorem append_ready : (p.append c).ready = p.ready := by
  unfold append
  split_ifs <;> rfl

@[simp] theorem erase_lastR : p.erase.lastR = p.lastR := rfl

@[simp] theorem erase_lastN : p.erase.lastN = p.lastN := rfl

/-- A negotiation code outside a pair does nothing. -/
theorem receive_negotiation (hc : Negotiation c) : p.receive c = p := by
  rw [receive, if_pos hc]

/-- After a line end one of the two flags is set. -/
theorem receive_lineEnd (hc : c = lf ∨ c = cr) :
    (p.receive c).lastR = true ∨ (p.receive c).lastN = true := by
  rcases hc with rfl | rfl
  · rw [receive, if_neg (by decide), if_pos rfl]
    split_ifs with hlast
    · exact .inl hlast
    · exact .inr rfl
  · rw [receive, if_neg (by decide), if_neg (by decide), if_pos rfl]
    split_ifs with hlast
    · exact .inr hlast
    · exact .inl rfl

/-- Any other byte clears both. -/
theorem receive_other (hneg : ¬ Negotiation c) (hend : ¬ (c = lf ∨ c = cr)) :
    (p.receive c).lastR = false ∧ (p.receive c).lastN = false := by
  rw [not_or] at hend
  rw [receive, if_neg hneg, if_neg hend.1, if_neg hend.2]
  constructor <;> split_ifs <;> simp

/-- A printable character clears the flags and goes into the buffer. -/
theorem receive_printable (hc : Printable c) :
    p.receive c = { p with lastN := false, lastR := false }.append c := by
  have hneg : ¬ Negotiation c := by
    rintro (rfl | rfl | rfl | rfl | rfl | rfl) <;> revert hc <;> decide
  have hend : c ≠ lf ∧ c ≠ cr := by
    constructor <;> rintro rfl <;> revert hc <;> decide
  have hdel : ¬ (c = 8 ∨ c = 127) := by
    rintro (rfl | rfl) <;> revert hc <;> decide
  simp only [receive, if_neg hneg, if_neg hend.1, if_neg hend.2, if_neg hdel, if_pos hc]

/-- Commands other than erasures only answer. -/
theorem command_eq (hec : c ≠ ec) (hel : c ≠ el) :
    p.command c = if c = ayt then p.say .yes else p := by
  rw [command, if_neg hec, if_neg hel]

end Player

/-! ## What is left -/

/-- The player that `process_input` leaves. -/
def Result.player : Result → Player
  | .returned p _ => p
  | .closed p _ => p
  | .blocked p => p

/-- The outcomes that `process_input` has not used. -/
def Result.rest : Result → List Outcome
  | .returned _ reads => reads
  | .closed _ reads => reads
  | .blocked _ => []

/-! ## Equal input -/

/-- Two players with the same line buffer and flags. -/
structure SameInput (p q : Player) : Prop where
  ibuffer : p.ibuffer = q.ibuffer
  ibufferPtr : p.ibufferPtr = q.ibufferPtr
  lastR : p.lastR = q.lastR
  lastN : p.lastN = q.lastN
  ready : p.ready = q.ready

namespace SameInput

theorem refl (p : Player) : SameInput p p := ⟨rfl, rfl, rfl, rfl, rfl⟩

theorem symm (h : SameInput p q) : SameInput q p :=
  ⟨h.ibuffer.symm, h.ibufferPtr.symm, h.lastR.symm, h.lastN.symm, h.ready.symm⟩

theorem trans {r : Player} (h : SameInput p q) (h' : SameInput q r) : SameInput p r :=
  ⟨h.ibuffer.trans h'.ibuffer, h.ibufferPtr.trans h'.ibufferPtr, h.lastR.trans h'.lastR,
    h.lastN.trans h'.lastN, h.ready.trans h'.ready⟩

theorem say (p : Player) (m : Notice) : SameInput (p.say m) p := ⟨rfl, rfl, rfl, rfl, rfl⟩

theorem erase (h : SameInput p q) : SameInput p.erase q.erase := by
  cases p
  cases q
  obtain ⟨rfl, rfl, rfl, rfl, rfl⟩ := h
  exact ⟨rfl, rfl, rfl, rfl, rfl⟩

theorem append (h : SameInput p q) (c : UInt8) : SameInput (p.append c) (q.append c) := by
  cases p
  cases q
  obtain ⟨rfl, rfl, rfl, rfl, rfl⟩ := h
  unfold Player.append
  dsimp only
  split_ifs <;> exact ⟨rfl, rfl, rfl, rfl, rfl⟩

/-- A byte has the same effect on equal input. -/
theorem receive (h : SameInput p q) (c : UInt8) : SameInput (p.receive c) (q.receive c) := by
  have hcleared : SameInput { p with lastN := false, lastR := false }
      { q with lastN := false, lastR := false } := ⟨h.ibuffer, h.ibufferPtr, rfl, rfl, h.ready⟩
  unfold Player.receive
  dsimp only
  rw [h.lastR, h.lastN]
  split_ifs
  · exact h
  · exact h
  · exact ⟨h.ibuffer, h.ibufferPtr, rfl, rfl, rfl⟩
  · exact h
  · exact ⟨h.ibuffer, h.ibufferPtr, rfl, rfl, rfl⟩
  · exact hcleared.erase.append c
  · exact hcleared.append c
  · exact hcleared.erase
  · exact hcleared

end SameInput

end ThreeW3.Input
