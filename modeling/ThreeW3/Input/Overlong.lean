/-
# Lines longer than the buffer

A character past a full buffer empties it in the middle of the line, and what follows
collects as if the line began there. So the handler gets the end of a long line, or with
`P_READY` still set the parts in which the line arrives.
-/

import ThreeW3.Input.Segments

namespace ThreeW3.Input

universe u

/-! ## Parts of a line -/

/-- The text is a proper suffix or an inner part of the line. -/
def Part (L t : List UInt8) : Prop := t ≠ [] ∧ ∃ u v, u ≠ [] ∧ L = u ++ t ++ v

/-- A line of printable characters that the buffer cannot hold. -/
structure LongLine where
  text : List UInt8
  printable : ∀ c ∈ text, Printable c
  long : bufsiz < text.length

/-- The ways in which a line can end. -/
def lineEndings : List (List UInt8) := [[cr], [lf], [cr, lf]]

variable {L : LongLine} {e : List UInt8}

/-- Whatever the handlers do, a session that has an empty buffer and `P_READY` as given
hands over no part of the line. -/
def NeverPart (ready : Bool) (A : Chunking (L.text ++ e)) : Prop :=
  ∀ (σ : Type) (H : Handlers σ) (s : Session σ) (rounds : List Round) (reads later : List Outcome),
    s.status = .running → Holds s.player [] ready → s.reads = reads ++ later →
    Cuts rounds A.chunks → Delivers reads (L.text ++ e) →
    ∀ call ∈ (socketSelect H s rounds).calls.drop s.calls.length, ¬ Part L.text call.text

/-- The line is handed over in pieces that leave nothing in the buffer, but for a first
piece that fits into it and does not come again in the line. -/
def Harmless (ready : Bool) (A : Chunking (L.text ++ e)) : Prop :=
  ∀ pre g post, textsFrom ready [] A.chunks = pre ++ g :: post →
    bufsiz + 1 ∣ g.length ∨ (pre.flatten = [] ∧ g.length ≤ bufsiz ∧ ¬ Part L.text g)

/-- The same of the first pieces only. -/
def HarmlessTo (n : ℕ) (ready : Bool) (A : Chunking (L.text ++ e)) : Prop :=
  ∀ pre g post, (textsFrom ready [] A.chunks).take n = pre ++ g :: post →
    bufsiz + 1 ∣ g.length ∨ (pre.flatten = [] ∧ g.length ≤ bufsiz ∧ ¬ Part L.text g)

/-! ## The pieces make up the line -/

theorem printables_append (a b : List UInt8) : printables (a ++ b) = printables a ++ printables b := by
  simp only [printables, List.filter_append]

theorem printables_flatten (A : List (List UInt8)) :
    printables A.flatten = (A.map printables).flatten := by
  induction A with
  | nil => rfl
  | cons a A ih => rw [List.flatten_cons, printables_append, ih]; rfl

/-- Where a line ends, all characters are handed over. -/
theorem flatten_pieces {A : List (List UInt8)} (hA : ∃ a ∈ A, hasLineEnd a = true)
    (u : List UInt8) : (pieces u A).flatten = u ++ printables A.flatten := by
  induction A generalizing u with
  | nil => simp at hA
  | cons a A ih =>
      rw [pieces, List.flatten_cons, printables_append, printables_flatten]
      split_ifs with hend
      · rw [List.flatten_cons, List.append_assoc]
      · have hA' : ∃ b ∈ A, hasLineEnd b = true := by
          obtain ⟨b, hb, hbend⟩ := hA
          rcases List.mem_cons.mp hb with rfl | hb
          · exact absurd hbend hend
          · exact ⟨b, hb, hbend⟩
        rw [ih hA', printables_flatten, List.append_assoc]

namespace LongLine

theorem text_textStream (L : LongLine) (he : e ∈ lineEndings) : Text (L.text ++ e) := by
  intro c hc
  rcases List.mem_append.mp hc with hc | hc
  · exact .inl (L.printable c hc)
  · have : ∀ e ∈ lineEndings, ∀ c ∈ e, c = cr ∨ c = lf := by simp [lineEndings]
    exact .inr (this e he c hc)

/-- Nothing but the line is printable. -/
theorem printables_eq (L : LongLine) (he : e ∈ lineEndings) : printables (L.text ++ e) = L.text := by
  have hend : printables e = [] := by
    have : ∀ e ∈ lineEndings, printables e = [] := by decide
    exact this e he
  have htext : printables L.text = L.text := List.filter_eq_self.mpr fun c hc => by
    simpa using L.printable c hc
  rw [printables_append, htext, hend, List.append_nil]

/-- The pieces handed over make up the line. -/
theorem flatten_textsFrom (he : e ∈ lineEndings) (ready : Bool) (A : Chunking (L.text ++ e)) :
    (textsFrom ready [] A.chunks).flatten = L.text := by
  cases ready with
  | true =>
      rw [textsFrom, if_pos rfl, ← printables_flatten, A.flatten_eq, L.printables_eq he]
  | false =>
      have hend : ∃ a ∈ A.chunks, hasLineEnd a = true := by
        have hmem : ∃ c ∈ L.text ++ e, LineEnd c := by
          have : ∀ e ∈ lineEndings, ∃ c ∈ e, LineEnd c := by simp [lineEndings, LineEnd]
          obtain ⟨c, hc, hcend⟩ := this e he
          exact ⟨c, List.mem_append_right _ hc, hcend⟩
        obtain ⟨c, hc, hcend⟩ := hmem
        rw [← A.flatten_eq] at hc
        obtain ⟨a, ha, hca⟩ := List.mem_flatten.mp hc
        exact ⟨a, ha, List.any_eq_true.mpr ⟨c, hca, by simpa using hcend⟩⟩
      simp only [textsFrom, Bool.false_eq_true, if_false]
      rw [flatten_pieces hend, A.flatten_eq, L.printables_eq he, List.nil_append]

end LongLine

/-! ## What the handler gets -/

/-- What is left of a piece is a part of the line, unless nothing is left, or the piece
is the beginning of the line and has been kept whole. -/
theorem part_kept_iff {M pre g post : List UInt8} (hM : M = pre ++ g ++ post) :
    ¬ Part M (kept g) ↔ bufsiz + 1 ∣ g.length ∨ (pre = [] ∧ g.length ≤ bufsiz ∧ ¬ Part M g) := by
  have hempty : kept g = [] ↔ bufsiz + 1 ∣ g.length := by
    rw [← List.length_eq_zero_iff, length_kept, Nat.dvd_iff_mod_eq_zero]
  by_cases hdvd : bufsiz + 1 ∣ g.length
  · have hnone : kept g = [] := hempty.mpr hdvd
    simp [hdvd, hnone, Part]
  · have hne : kept g ≠ [] := fun hnone => hdvd (hempty.mp hnone)
    simp only [hdvd, false_or]
    have hcut : g.take (g.length / (bufsiz + 1) * (bufsiz + 1)) ++ kept g = g :=
      List.take_append_drop _ _
    have hsplit : M = (pre ++ g.take (g.length / (bufsiz + 1) * (bufsiz + 1))) ++ kept g ++ post := by
      rw [List.append_assoc pre, hcut, hM]
    constructor
    · intro hpart
      have hbefore : pre ++ g.take (g.length / (bufsiz + 1) * (bufsiz + 1)) = [] := by
        by_contra hbefore
        exact hpart ⟨hne, _, _, hbefore, hsplit⟩
      obtain ⟨hpre, htake⟩ := List.append_eq_nil_iff.mp hbefore
      have hquot : g.length / (bufsiz + 1) = 0 := by
        have hg : 0 < g.length := by
          rw [List.length_pos_iff]
          rintro rfl
          exact hdvd (by simp)
        have hlength := congrArg List.length htake
        rw [List.length_take, List.length_nil] at hlength
        by_contra hquot
        have hpos : 0 < g.length / (bufsiz + 1) * (bufsiz + 1) :=
          Nat.mul_pos (Nat.pos_of_ne_zero hquot) (Nat.succ_pos _)
        omega
      have hfits : g.length ≤ bufsiz :=
        Nat.le_of_lt_succ ((Nat.div_eq_zero_iff_lt (Nat.succ_pos _)).mp hquot)
      have hwhole : kept g = g := by rw [kept, hquot, Nat.zero_mul, List.drop_zero]
      exact ⟨hpre, hfits, hwhole ▸ hpart⟩
    · rintro ⟨-, hfits, hpart⟩
      have hquot : g.length / (bufsiz + 1) = 0 := Nat.div_eq_of_lt (Nat.lt_succ_of_le hfits)
      rwa [kept, hquot, Nat.zero_mul, List.drop_zero]

section Calls

variable {σ : Type u} {H : Handlers σ} {s : Session σ}

/-- The calls of a session while the line comes in. -/
theorem calls_of_longLine (he : e ∈ lineEndings) {ready : Bool} {A : Chunking (L.text ++ e)}
    {rounds : List Round} {reads later : List Outcome} (hrun : s.status = .running)
    (hholds : Holds s.player [] ready) (hreads : s.reads = reads ++ later)
    (hcuts : Cuts rounds A.chunks) (hd : Delivers reads (L.text ++ e)) :
    (socketSelect H s rounds).calls.drop s.calls.length =
      answered H s.mode ((textsFrom ready [] A.chunks).map kept) := by
  have hchunks : ∀ a ∈ A.chunks, Text a := A.text_of_mem (L.text_textStream he)
  rw [← A.flatten_eq] at hd
  have hholds' : Holds s.player (kept []) ready := hholds
  rw [calls_of_cuts hcuts hrun hholds' (fun _ => rfl) hchunks hd hreads, List.drop_left]

end Calls

/-- A new player, or one whose `P_READY` has been set. -/
theorem exists_holds (ready : Bool) : ∃ p, Holds p [] ready := by
  cases ready with
  | false => exact ⟨playerNew, .new⟩
  | true => exact ⟨{ playerNew with ready := true }, by rfl, rfl, rfl, fun _ => rfl⟩

/-- The first pieces and the others. -/
theorem eq_of_take {l pre post : List (List UInt8)} {g : List UInt8} {n : ℕ}
    (h : l.take n = pre ++ g :: post) : l = pre ++ g :: (post ++ l.drop n) := by
  calc l = l.take n ++ l.drop n := (List.take_append_drop n l).symm
    _ = pre ++ g :: (post ++ l.drop n) := by rw [h, List.append_assoc, List.cons_append]

theorem harmlessTo_length (ready : Bool) (A : Chunking (L.text ++ e)) :
    HarmlessTo (textsFrom ready [] A.chunks).length ready A ↔ Harmless ready A := by
  rw [HarmlessTo, Harmless, List.take_length]

/-- With given handlers, the pieces count up to the one with which they end the session. -/
theorem noPart_iff {σ : Type u} {H : Handlers σ} {s : Session σ} (he : e ∈ lineEndings)
    {ready : Bool} {A : Chunking (L.text ++ e)} {rounds : List Round} {reads later : List Outcome}
    (hrun : s.status = .running) (hholds : Holds s.player [] ready)
    (hreads : s.reads = reads ++ later) (hcuts : Cuts rounds A.chunks)
    (hd : Delivers reads (L.text ++ e)) :
    (∀ call ∈ (socketSelect H s rounds).calls.drop s.calls.length, ¬ Part L.text call.text) ↔
      HarmlessTo (heard H s.mode ((textsFrom ready [] A.chunks).map kept)).length ready A := by
  set P := textsFrom ready [] A.chunks with hP
  set n := (heard H s.mode (P.map kept)).length
  have hheard : heard H s.mode (P.map kept) = (P.take n).map kept := by
    rw [List.map_take]
    exact List.prefix_iff_eq_take.mp (heard_initial H s.mode (P.map kept))
  have hline : ∀ {pre g post}, P.take n = pre ++ g :: post →
      L.text = pre.flatten ++ g ++ (post ++ P.drop n).flatten := by
    intro pre g post hpieces
    have hflatten := L.flatten_textsFrom he ready A
    rw [← hP, eq_of_take hpieces, List.flatten_append, List.flatten_cons] at hflatten
    rw [← hflatten, List.append_assoc]
  rw [calls_of_longLine he hrun hholds hreads hcuts hd, answered_eq, hheard]
  constructor
  · intro hparts pre g post hpieces
    rw [← part_kept_iff (hline hpieces)]
    have hg : g ∈ P.take n := by
      rw [hpieces]
      simp
    have hpart := hparts _ (List.mem_map_of_mem (List.mem_map_of_mem hg))
    rwa [Call.text_ofText (length_kept_le g)] at hpart
  · intro hharmless call hcall
    obtain ⟨t, ht, rfl⟩ := List.mem_map.mp hcall
    obtain ⟨g, hg, rfl⟩ := List.mem_map.mp ht
    obtain ⟨pre, post, hpieces⟩ := List.append_of_mem hg
    rw [Call.text_ofText (length_kept_le g), part_kept_iff (hline hpieces)]
    exact hharmless pre g post hpieces

theorem harmless_of_neverPart (he : e ∈ lineEndings) {ready : Bool} {A : Chunking (L.text ++ e)}
    (h : NeverPart ready A) : Harmless ready A := by
  obtain ⟨p, hp⟩ := exists_holds ready
  obtain ⟨rounds, hcuts⟩ := exists_cuts A.nonempty
  let s : Session Unit := ⟨p, (), (L.text ++ e).map .byte ++ [], [], .running⟩
  have hparts := h Unit patient s rounds _ [] rfl hp rfl hcuts (.bytes _)
  rw [noPart_iff he rfl hp rfl hcuts (.bytes _), heard_patient, List.length_map] at hparts
  exact (harmlessTo_length ready A).mp hparts

theorem Harmless.harmlessTo {ready : Bool} {A : Chunking (L.text ++ e)} (h : Harmless ready A)
    (n : ℕ) : HarmlessTo n ready A := by
  intro pre g post hpieces
  exact h pre g _ (eq_of_take hpieces)

/-- No part of an overlong line is handed over exactly when it comes in pieces that leave
nothing behind. -/
theorem neverPart_iff (he : e ∈ lineEndings) (ready : Bool) (A : Chunking (L.text ++ e)) :
    NeverPart ready A ↔ Harmless ready A := by
  constructor
  · exact harmless_of_neverPart he
  · intro hharmless σ H s rounds reads later hrun hholds hreads hcuts hd
    exact (noPart_iff he hrun hholds hreads hcuts hd).mpr (hharmless.harmlessTo _)

/-- A line of some characters more than the buffer holds. -/
def tooMany (n : ℕ) : LongLine where
  text := List.replicate (bufsiz + 1 + n) 97
  printable := fun c hc => by
    rw [List.eq_of_mem_replicate hc]
    decide
  long := by
    rw [List.length_replicate]
    omega

/-- The line and its end in one chunk. -/
def inOneChunk (n : ℕ) : Chunking ((tooMany n).text ++ [lf]) :=
  ⟨[(tooMany n).text ++ [lf]], by simp, by simp⟩

theorem textsFrom_inOneChunk (n : ℕ) :
    textsFrom false [] (inOneChunk n).chunks = [(tooMany n).text] := by
  have he : [lf] ∈ lineEndings := by decide
  have hend : hasLineEnd ((tooMany n).text ++ [lf]) = true := by simp [hasLineEnd, LineEnd]
  simp only [textsFrom, inOneChunk, Bool.false_eq_true, if_false, pieces, hend, if_true,
    (tooMany n).printables_eq he, List.nil_append, List.map_nil]

/-- A line of one character too many is lost as a whole. -/
theorem inOneChunk_neverPart : NeverPart false (inOneChunk 0) := by
  refine (neverPart_iff (by decide) false (inOneChunk 0)).mpr fun pre g post hpieces => .inl ?_
  have hmem : g ∈ [(tooMany 0).text] := by
    rw [← textsFrom_inOneChunk, hpieces]
    simp
  rw [List.mem_singleton.mp hmem]
  exact ⟨1, by rw [Nat.mul_one]; exact List.length_replicate⟩

/-- Of one of two too many, the last character is handed over as a line of its own. -/
theorem inOneChunk_not_neverPart : ¬ NeverPart false (inOneChunk 1) := by
  intro h
  have hlength : (tooMany 1).text.length = bufsiz + 2 := List.length_replicate
  rcases harmless_of_neverPart (by decide) h [] (tooMany 1).text [] (textsFrom_inOneChunk 1) with
    hdvd | ⟨-, hfits, -⟩
  · rw [hlength] at hdvd
    revert hdvd
    decide
  · rw [hlength] at hfits
    omega

end ThreeW3.Input
