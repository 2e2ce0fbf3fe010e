/-
# Line editing

What a user types on a line, and the text that a line editor makes of it. When each
line comes in one chunk, the handlers are called once for each line, with this text.
-/

import Mathlib.Data.List.Forall2
import ThreeW3.Input.Segments

namespace ThreeW3.Input

universe u

/-! ## Lines as they are typed -/

/-- A byte that the editor ignores: a control byte that is no line end and no
backspace, or a byte from 128 to 239. -/
abbrev Ignored (c : UInt8) : Prop :=
  (c < 32 ∧ c ≠ 8 ∧ c ≠ lf ∧ c ≠ cr) ∨ (128 ≤ c ∧ c ≤ 239)

/-- Something typed on a line. -/
inductive Key
  | character (c : UInt8) (hc : Printable c)
  | backspace
  | delete
  | eraseCharacter
  | eraseLine
  | ignored (c : UInt8) (hc : Ignored c)

/-- The bytes that are sent. -/
def Key.wire : Key → List UInt8
  | character c _ => [c]
  | backspace => [8]
  | delete => [127]
  | eraseCharacter => [iac, ec]
  | eraseLine => [iac, el]
  | ignored c _ => [c]

/-- The text on the line after a key. -/
def Key.edit (w : List UInt8) : Key → List UInt8
  | character c _ => w ++ [c]
  | backspace => w.dropLast
  | delete => w.dropLast
  | eraseCharacter => w.dropLast
  | eraseLine => []
  | ignored _ _ => w

/-- How a line ends. -/
inductive Ending
  | cr
  | lf
  | crlf
  deriving DecidableEq

def Ending.wire : Ending → List UInt8
  | cr => [Input.cr]
  | lf => [Input.lf]
  | crlf => [Input.cr, Input.lf]

/-- A line. -/
structure Line where
  keys : List Key
  ending : Ending

namespace Line

/-- The bytes of the line, with its end. -/
def wire (l : Line) : List UInt8 := l.keys.flatMap Key.wire ++ l.ending.wire

/-- What the reference editor makes of the line. -/
def text (l : Line) : List UInt8 := l.keys.foldl Key.edit []

end Line

/-- The text never gets longer than the buffer while these keys are typed. -/
def Fits (w : List UInt8) : List Key → Prop
  | [] => w.length ≤ bufsiz
  | k :: ks => w.length ≤ bufsiz ∧ Fits (k.edit w) ks

instance decidableFits : (w : List UInt8) → (ks : List Key) → Decidable (Fits w ks)
  | w, [] => inferInstanceAs (Decidable (w.length ≤ bufsiz))
  | w, k :: ks =>
      have := decidableFits (k.edit w) ks
      inferInstanceAs (Decidable (w.length ≤ bufsiz ∧ Fits (k.edit w) ks))

/-! ## The player under the keys -/

theorem padded_dropLast (w : List UInt8) (hlt : w.length - 1 < bufsiz) :
    Function.update (padded w) ⟨w.length - 1, hlt⟩ 0 = padded w.dropLast := by
  funext i
  by_cases hi : i = ⟨w.length - 1, hlt⟩
  · subst hi
    rw [Function.update_self, padded, List.getD_eq_default _ _ (by simp)]
  · have hne : (i : ℕ) ≠ w.length - 1 := fun heq => hi (Fin.ext heq)
    rw [Function.update_of_ne hi, padded, padded]
    rcases Nat.lt_or_ge i w.dropLast.length with hlow | hhigh
    · rw [List.getD_eq_getElem _ _ hlow, List.getElem_dropLast,
        List.getD_eq_getElem _ _ (by rw [List.length_dropLast] at hlow; omega)]
    · rw [List.length_dropLast] at hhigh
      rw [List.getD_eq_default _ _ (by omega), List.getD_eq_default _ _ (by simp; omega)]

/-- The last character of a text goes from a buffer that has it. -/
theorem erase_padded {p : Player} {w : List UInt8} (hbuffer : p.ibuffer = padded w)
    (hptr : p.ibufferPtr = w.length) :
    p.erase.ibuffer = padded w.dropLast ∧ p.erase.ibufferPtr = w.dropLast.length := by
  have hlt : w.length - 1 < bufsiz := by
    have hle : w.length ≤ bufsiz := hptr ▸ p.ptr_le
    have := bufsiz_pos
    omega
  constructor
  · rw [← padded_dropLast w hlt, ← hbuffer]
    simp only [Player.erase, hptr]
  · rw [List.length_dropLast, ← hptr]
    rfl

theorem not_closing_of_ignored {c : UInt8} (hc : Ignored c) : ¬ Closing c ∧ c ≠ iac := by
  constructor
  · rintro (rfl | rfl) <;> revert hc <;> decide
  · rintro rfl
    revert hc
    decide

namespace Holds

variable {p : Player} {w : List UInt8} {ready : Bool} {c : UInt8}

/-- The last character goes. -/
theorem erase (h : Holds p w ready) : Holds p.erase w.dropLast ready := by
  obtain ⟨hbuffer, hptr⟩ := erase_padded h.ibuffer h.ibufferPtr
  exact ⟨hbuffer, hptr, h.ready_eq, h.flags⟩

theorem rubout (h : Holds p w ready) (hc : c = 8 ∨ c = 127) :
    Holds (p.receive c) w.dropLast ready := by
  have hflags : Holds { p with lastN := false, lastR := false } w ready :=
    ⟨h.ibuffer, h.ibufferPtr, h.ready_eq, by simp⟩
  rcases hc with rfl | rfl
  · exact hflags.erase
  · exact hflags.erase

theorem ignored (h : Holds p w ready) (hc : Ignored c) : Holds (p.receive c) w ready := by
  have hneg : ¬ Negotiation c := by
    rintro (rfl | rfl | rfl | rfl | rfl | rfl) <;> revert hc <;> decide
  have hend : c ≠ lf ∧ c ≠ cr := by
    constructor <;> rintro rfl <;> revert hc <;> decide
  have hdel : ¬ (c = 8 ∨ c = 127) := by
    rintro (rfl | rfl) <;> revert hc <;> decide
  have hprint : ¬ Printable c := by
    rcases hc with ⟨hlow, -⟩ | ⟨hhigh, -⟩
    · exact fun hc => absurd (UInt8.lt_iff_toNat_lt.mp hc.1) (by
        have := UInt8.lt_iff_toNat_lt.mp hlow
        simp at this ⊢
        omega)
    · exact fun hc => absurd (UInt8.lt_iff_toNat_lt.mp hc.2) (by
        have := UInt8.le_iff_toNat_le.mp hhigh
        simp at this ⊢
        omega)
  simp only [Player.receive, if_neg hneg, if_neg hend.1, if_neg hend.2, if_neg hdel, if_neg hprint]
  exact ⟨h.ibuffer, h.ibufferPtr, h.ready_eq, by simp⟩

/-- A key goes through. -/
theorem key (h : Holds p w ready) {k : Key} (hfits : (k.edit w).length ≤ bufsiz)
    (rest : List UInt8) :
    ∃ q, scan p (k.wire ++ rest) = scan q rest ∧ Holds q (k.edit w) ready := by
  cases k with
  | character c hc =>
      have htext : IsText c := .inl hc
      have hroom : w.length < bufsiz := by
        simp only [Key.edit, List.length_append, List.length_singleton] at hfits
        omega
      refine ⟨p.receive c, scan_receive htext.not_closing htext.ne_iac p rest, ?_⟩
      have hput := h.printable hc
      rwa [put, if_pos hroom] at hput
  | backspace => exact ⟨_, scan_receive (by decide) (by decide) p rest, h.rubout (.inl rfl)⟩
  | delete => exact ⟨_, scan_receive (by decide) (by decide) p rest, h.rubout (.inr rfl)⟩
  | eraseCharacter => exact ⟨_, scan_command (by decide) p rest, h.erase⟩
  | eraseLine => exact ⟨_, scan_command (by decide) p rest, ⟨by rfl, rfl, h.ready_eq, h.flags⟩⟩
  | ignored c hc =>
      obtain ⟨hclosing, hiac⟩ := not_closing_of_ignored hc
      exact ⟨_, scan_receive hclosing hiac p rest, h.ignored hc⟩

/-- The keys of a line go through. -/
theorem keys (h : Holds p w ready) {ks : List Key} (hfits : Fits w ks) (rest : List UInt8) :
    ∃ q, scan p (ks.flatMap Key.wire ++ rest) = scan q rest ∧
      Holds q (ks.foldl Key.edit w) ready := by
  induction ks generalizing p w with
  | nil => exact ⟨p, rfl, h⟩
  | cons k ks ih =>
      have hnext : (k.edit w).length ≤ bufsiz := by
        cases ks with
        | nil => exact hfits.2
        | cons _ _ => exact hfits.2.1
      obtain ⟨q, hq, hholds⟩ := h.key hnext (ks.flatMap Key.wire ++ rest)
      obtain ⟨q', hq', hholds'⟩ := ih hholds hfits.2
      refine ⟨q', ?_, hholds'⟩
      rw [List.flatMap_cons, List.append_assoc, hq, hq']

/-- The end of a line sets `P_READY`, whatever ended the line before. -/
theorem ending (h : Holds p w ready) (e : Ending) :
    ∃ q, scan p e.wire = .passed q ∧ Holds q w true := by
  have hstep : ∀ {p ready c}, Holds p w ready → LineEnd c → ∀ rest,
      scan p (c :: rest) = scan (p.receive c) rest := by
    intro p ready c _ hc rest
    have htext : IsText c := .inr hc.symm
    exact scan_receive htext.not_closing htext.ne_iac p rest
  cases e with
  | cr =>
      refine ⟨_, (hstep h (.inr rfl) []).trans (scan_nil _), h.lineEnd (.inr rfl)⟩
  | lf =>
      refine ⟨_, (hstep h (.inl rfl) []).trans (scan_nil _), h.lineEnd (.inl rfl)⟩
  | crlf =>
      have hcr := h.lineEnd (c := cr) (.inr rfl)
      exact ⟨_, (hstep h (.inr rfl) [lf]).trans ((hstep hcr (.inl rfl) []).trans (scan_nil _)),
        hcr.lineEnd (.inl rfl)⟩

end Holds

/-! ## Runs -/

/-- Whatever the flags are, a session with an empty buffer takes this text from the
chunk and hands it over. -/
def Hands (a w : List UInt8) : Prop :=
  ∀ p ready, Holds p [] ready → ∃ q, scan p a = .passed q ∧ Holds q w true

theorem Line.hands {l : Line} (hfits : Fits [] l.keys) : Hands l.wire l.text := by
  intro p ready h
  obtain ⟨q, hq, hholds⟩ := h.keys hfits l.ending.wire
  obtain ⟨q', hq', hholds'⟩ := hholds.ending l.ending
  exact ⟨q', by rw [Line.wire, hq, hq'], hholds'⟩

section Runs

variable {σ : Type u} {H : Handlers σ} {s : Session σ}

/-- A session over chunks that are handed over one by one. -/
theorem calls_of_hands {rounds : List Round} {A ws : List (List UInt8)} (hcuts : Cuts rounds A)
    (hhands : List.Forall₂ Hands A ws) {ready : Bool} {reads later : List Outcome}
    (hrun : s.status = .running) (hholds : Holds s.player [] ready)
    (hd : Delivers reads A.flatten) (hreads : s.reads = reads ++ later) :
    (socketSelect H s rounds).calls = s.calls ++ answered H s.mode ws := by
  induction hcuts generalizing s ws ready reads with
  | nil =>
      cases hhands
      simp [socketSelect, answered]
  | interrupted hcuts ih =>
      by_cases hlogout : H.logout s.mode = true
      · exact calls_answered_logout hrun hlogout _ _
      rw [socketSelect_cons, round_interrupted hrun hlogout]
      exact ih hhands hrun hholds hd hreads
  | idle hcuts ih =>
      by_cases hlogout : H.logout s.mode = true
      · exact calls_answered_logout hrun hlogout _ _
      rw [socketSelect_cons, round_idle hrun hlogout]
      exact ih hhands hrun hholds hd hreads
  | @chunk rounds A a c hne hcuts ih =>
      by_cases hlogout : H.logout s.mode = true
      · exact calls_answered_logout hrun hlogout _ _
      obtain ⟨w, ws, hhand, hrest, rfl⟩ := List.forall₂_cons_left_iff.mp hhands
      rw [List.flatten_cons] at hd
      obtain ⟨r₁, r₂, rfl, hd₁, hd₂⟩ := hd.split
      obtain ⟨q, hscan, hq⟩ := hhand s.player ready hholds
      rw [List.append_assoc] at hreads
      rw [socketSelect_cons, round_chunk hrun hlogout hne hd₁ hreads hscan]
      exact calls_dispatch hlogout hq fun mode => ih hrest hrun (hq.wipe .prompt) hd₂ rfl

end Runs

/-- Lines that come one in a chunk: the handlers are called once for each line, in
order, with the edited text and its length, until one of them ends the session. -/
theorem edited_lines {σ : Type u} (H : Handlers σ) (mode : σ) (lines : List Line)
    (hfits : ∀ l ∈ lines, Fits [] l.keys) {rounds : List Round} {reads later : List Outcome}
    (hcuts : Cuts rounds (lines.map Line.wire))
    (hd : Delivers reads (lines.map Line.wire).flatten) :
    (socketSelect H (.start mode (reads ++ later)) rounds).calls =
      answered H mode (lines.map Line.text) := by
  have hhands : List.Forall₂ Hands (lines.map Line.wire) (lines.map Line.text) := by
    rw [List.forall₂_map_left_iff, List.forall₂_map_right_iff, List.forall₂_same]
    exact fun l hl => Line.hands (hfits l hl)
  simpa [Session.start] using
    calls_of_hands (H := H) (s := .start mode (reads ++ later)) hcuts hhands rfl .new hd rfl

/-- A line with corrections, an empty line whose end follows that of the first one, and
a line that is begun anew. -/
def typed : List Line :=
  [⟨[.character 110 (by decide), .character 111 (by decide), .backspace, .ignored 7 (by decide),
      .character 101 (by decide), .eraseCharacter, .delete, .delete, .character 120 (by decide)], .cr⟩,
    ⟨[], .lf⟩,
    ⟨[.character 97 (by decide), .eraseLine, .character 98 (by decide), .ignored 200 (by decide)], .crlf⟩]

example : typed.map Line.text = [[120], [], [98]] := by decide

theorem typed_edited_lines :
    (socketSelect patient (.start ()
      ((typed.map Line.wire).flatten.map .byte ++ []))
        ((typed.map Line.wire).map fun a => .readable (some (a.length : ℤ)) 0)).calls =
      answered patient () (typed.map Line.text) :=
  edited_lines patient () typed (by decide)
    (.chunk 0 (by decide) (.chunk 0 (by decide) (.chunk 0 (by decide) .nil))) (.bytes _)

end ThreeW3.Input
