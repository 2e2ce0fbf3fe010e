/-
# Telnet sequences in text

A sequence is inert when the bytes after its first pair are negotiation codes or
doubled IACs. Inert sequences leave no trace in the input of a session. Any
other option byte or body byte is taken for input of its own.
-/

import Mathlib.Data.List.Induction
import Mathlib.Data.Set.Insert
import ThreeW3.Input.Player
import ThreeW3.Input.Scan

namespace ThreeW3.Input

/-! ## Sequences -/

/-- The one-byte commands of `arpa/telnet.h` other than erasures, interrupt and
break: xEOF, SUSP, ABORT, EOR, NOP, DM, AO, AYT and GA. -/
def plainCommands : List UInt8 := [236, 237, 238, 239, 241, 242, 245, ayt, 249]

/-- The verbs that an option byte follows. -/
def verbs : List UInt8 := [will, wont, doOpt, dont]

/-- The well-formed Telnet sequences other than erasures, interrupt and break. -/
inductive Sequence
  | command (c : UInt8) (plain : c ∈ plainCommands)
  | negotiate (verb : UInt8) (isVerb : verb ∈ verbs) (option : UInt8)
  | subnegotiate (body : List UInt8)

/-- A body with every IAC doubled. -/
def encode (body : List UInt8) : List UInt8 :=
  body.flatMap fun b => if b = iac then [iac, iac] else [b]

/-- The bytes of a sequence. -/
def Sequence.wire : Sequence → List UInt8
  | .command c _ => [iac, c]
  | .negotiate verb _ option => [iac, verb, option]
  | .subnegotiate body => iac :: sb :: (encode body ++ [iac, se])

/-- The sequence carries only bytes that `process_input` passes over. -/
def Sequence.Inert : Sequence → Prop
  | .command _ _ => True
  | .negotiate _ _ option => Negotiation option
  | .subnegotiate body => ∀ b ∈ body, Negotiation b ∨ b = iac

/-- The second stream is the first with sequences of the set put in. -/
inductive Inserted (S : Set Sequence) : List UInt8 → List UInt8 → Prop
  | nil : Inserted S [] []
  | char {t t'} (c) : Inserted S t t' → Inserted S (c :: t) (c :: t')
  | sequence {t t'} {s : Sequence} : s ∈ S → Inserted S t t' → Inserted S t (s.wire ++ t')

/-- Processed as one chunk, the stream is read to its end, leaves this player and
does not close the session. An empty stream wakes nobody. -/
def Leaves (p : Player) (t : List UInt8) (q : Player) : Prop :=
  if t = [] then q = p
  else ∀ c reads later, Delivers reads t →
    processInput p c (some t.length) (reads ++ later) = .returned q later

/-- Both streams leave the same input. -/
def Transparent (p : Player) (t t' : List UInt8) : Prop :=
  ∃ q q', Leaves p t q ∧ Leaves p t' q' ∧ SameInput q q'

theorem leaves_iff {p q : Player} {t : List UInt8} : Leaves p t q ↔ scan p t = .passed q := by
  by_cases hne : t = []
  · simp [Leaves, hne, eq_comm]
  · rw [Leaves, if_neg hne]
    constructor
    · intro hleaves
      have hresult := processInput_scan hne (.bytes t) p 0 []
      rw [hleaves 0 _ [] (.bytes t)] at hresult
      cases hscan : scan p t with
      | passed r =>
          rw [hscan] at hresult
          obtain ⟨rfl, -⟩ := Result.returned.inj hresult
          rfl
      | closed r => simp [hscan, Scan.Describes] at hresult
      | halfPair r => simp [hscan, Scan.Describes, Result.Overreads] at hresult
    · intro hscan c reads later hd
      have hresult := processInput_scan hne hd p c later
      rw [hscan] at hresult
      exact hresult

theorem transparent_iff_scan {p : Player} {t t' : List UInt8} :
    Transparent p t t' ↔
      ∃ q q', scan p t = .passed q ∧ scan p t' = .passed q' ∧ SameInput q q' := by
  simp only [Transparent, leaves_iff]

/-! ## Inert sequences -/

variable {p q : Player} {t t' : List UInt8} {S : Set Sequence}

/-- What a body byte does: a doubled IAC nothing, another byte what it does as
input. -/
def Player.feed (p : Player) (b : UInt8) : Player := if b = iac then p else p.receive b

theorem Player.feed_inert {b : UInt8} (hb : Negotiation b ∨ b = iac) : p.feed b = p := by
  unfold feed
  split_ifs with hiac
  · rfl
  · exact receive_negotiation (hb.resolve_right hiac)

theorem Player.foldl_feed_inert {body : List UInt8} (hinert : ∀ b ∈ body, Negotiation b ∨ b = iac) :
    body.foldl Player.feed p = p := by
  induction body with
  | nil => rfl
  | cons b body ih =>
      rw [List.foldl_cons, feed_inert (hinert b List.mem_cons_self)]
      exact ih fun b' hb' => hinert b' (List.mem_cons_of_mem _ hb')

theorem not_closing_of_inert {b : UInt8} (hb : Negotiation b ∨ b = iac) : ¬ Closing b := by
  rintro (rfl | rfl) <;> revert hb <;> decide

theorem plain_ne {c : UInt8} (hc : c ∈ plainCommands) : c ≠ ip ∧ c ≠ ec ∧ c ≠ el := by
  refine ⟨?_, ?_, ?_⟩ <;> rintro rfl <;> revert hc <;> decide

/-- A verb, SB or SE after IAC does nothing. -/
theorem scan_opening {v : UInt8} (hv : v ∈ sb :: se :: verbs) (p : Player) (cs : List UInt8) :
    scan p (iac :: v :: cs) = scan p cs := by
  have hcommand : p.command v = p := by
    simp only [verbs, List.mem_cons, List.not_mem_nil, or_false] at hv
    rcases hv with rfl | rfl | rfl | rfl | rfl | rfl <;> rfl
  have hip : v ≠ ip := by
    rintro rfl
    revert hv
    decide
  rw [scan_command hip, hcommand]

/-- A body is scanned byte by byte. -/
theorem scan_encode {body : List UInt8} (hopen : ∀ b ∈ body, ¬ Closing b) (p : Player)
    (cs : List UInt8) : scan p (encode body ++ cs) = scan (body.foldl Player.feed p) cs := by
  induction body generalizing p with
  | nil => rfl
  | cons b body ih =>
      have hbody : ∀ b ∈ body, ¬ Closing b := fun b' hb' => hopen b' (List.mem_cons_of_mem _ hb')
      by_cases hiac : b = iac
      · have hwire : encode (b :: body) ++ cs = iac :: iac :: (encode body ++ cs) := by
          simp [encode, hiac]
        have hcommand : p.command iac = p := rfl
        rw [hwire, scan_command (by decide), hcommand, ih hbody, List.foldl_cons, Player.feed,
          if_pos hiac]
      · have hwire : encode (b :: body) ++ cs = b :: (encode body ++ cs) := by
          simp [encode, hiac]
        rw [hwire, scan_receive (hopen b List.mem_cons_self) hiac, ih hbody, List.foldl_cons,
          Player.feed, if_neg hiac]

/-- A closing byte in a body closes the session. -/
theorem scan_encode_closing {body : List UInt8} (hclose : ∃ b ∈ body, Closing b) (p : Player)
    (cs : List UInt8) : ∃ q, scan p (encode body ++ cs) = .closed q := by
  induction body generalizing p with
  | nil => simp at hclose
  | cons b body ih =>
      by_cases hb : Closing b
      · have hiac : b ≠ iac := by
          rintro rfl
          revert hb
          decide
        have hwire : encode (b :: body) ++ cs = b :: (encode body ++ cs) := by
          simp [encode, hiac]
        exact ⟨p, by rw [hwire, scan_closing hb]⟩
      · have hbody : ∃ b ∈ body, Closing b := by
          obtain ⟨b', hb', hclose'⟩ := hclose
          rcases List.mem_cons.mp hb' with rfl | hmem
          · exact absurd hclose' hb
          · exact ⟨b', hmem, hclose'⟩
        by_cases hiac : b = iac
        · obtain ⟨q, hq⟩ := ih hbody (p.command iac)
          exact ⟨q, by simpa [encode, hiac, scan_command (show iac ≠ ip by decide)] using hq⟩
        · obtain ⟨q, hq⟩ := ih hbody (p.receive b)
          exact ⟨q, by simpa [encode, hiac, scan_receive hb hiac] using hq⟩

/-- Nothing but a message is left of an inert sequence. -/
theorem scan_inert {s : Sequence} (hs : s.Inert) (p : Player) (cs : List UInt8) :
    ∃ q, SameInput q p ∧ scan p (s.wire ++ cs) = scan q cs := by
  cases s with
  | command c plain =>
      obtain ⟨hip, hec, hel⟩ := plain_ne plain
      refine ⟨p.command c, ?_, scan_command hip p cs⟩
      rw [Player.command_eq hec hel]
      split_ifs
      · exact .say p .yes
      · exact .refl p
  | negotiate verb isVerb option =>
      refine ⟨p, .refl p, ?_⟩
      have hverb : verb ∈ sb :: se :: verbs := by simp [isVerb]
      have hopen := not_closing_of_inert (.inl hs)
      have hiac : option ≠ iac := by
        rintro rfl
        revert hs
        exact (by decide : ¬ Negotiation iac)
      calc scan p (iac :: verb :: option :: cs) = scan p (option :: cs) := scan_opening hverb p _
        _ = scan (p.receive option) cs := scan_receive hopen hiac p cs
        _ = scan p cs := by rw [Player.receive_negotiation hs]
  | subnegotiate body =>
      refine ⟨p, .refl p, ?_⟩
      have hopen : ∀ b ∈ body, ¬ Closing b := fun b hb => not_closing_of_inert (hs b hb)
      have hwire : (Sequence.subnegotiate body).wire ++ cs =
          iac :: sb :: (encode body ++ iac :: se :: cs) := by simp [Sequence.wire]
      rw [hwire, scan_opening (by simp), scan_encode hopen, Player.foldl_feed_inert hs,
        scan_opening (by simp)]

/-- Text with inert sequences in it leaves the same input as the text. -/
theorem scan_inserted (hS : ∀ s ∈ S, s.Inert) (htext : Text t)
    (hin : Inserted S t t') (hsame : SameInput p q) :
    ∃ p' q', scan p t = .passed p' ∧ scan q t' = .passed q' ∧ SameInput p' q' := by
  induction hin generalizing p q with
  | nil => exact ⟨p, q, scan_nil p, scan_nil q, hsame⟩
  | char c hin ih =>
      have hc := htext.head
      rw [scan_receive hc.not_closing hc.ne_iac, scan_receive hc.not_closing hc.ne_iac]
      exact ih htext.tail (hsame.receive c)
  | sequence hs hin ih =>
      obtain ⟨r, hr, hscan⟩ := scan_inert (hS _ hs) q _
      rw [hscan]
      exact ih htext (hsame.trans hr.symm)

/-! ## Only inert sequences -/

/-- A body is inert, or its last byte that is not decides the flags. -/
theorem Player.flags_foldl_feed (body : List UInt8) :
    (∀ b ∈ body, Negotiation b ∨ b = iac) ∨
      (∀ p, (body.foldl Player.feed p).lastR = false ∧ (body.foldl Player.feed p).lastN = false) ∨
      ∀ p, (body.foldl Player.feed p).lastR = true ∨ (body.foldl Player.feed p).lastN = true := by
  induction body using List.reverseRecOn with
  | nil => simp
  | append_singleton body b ih =>
      simp only [List.foldl_append, List.foldl_cons, List.foldl_nil]
      by_cases hinert : Negotiation b ∨ b = iac
      · simp only [feed_inert hinert]
        refine ih.imp_left fun hbody b' hb' => ?_
        rcases List.mem_append.mp hb' with hmem | hmem
        · exact hbody b' hmem
        · rwa [List.mem_singleton.mp hmem]
      · rw [not_or] at hinert
        simp only [feed, if_neg hinert.2]
        by_cases hend : b = lf ∨ b = cr
        · exact .inr (.inr fun p => receive_lineEnd hend)
        · exact .inr (.inl fun p => receive_other hinert.1 hend)

/-- A body that changes the flags of neither player is inert. -/
theorem inert_of_flags {body cs : List UInt8} {p₁ p₂ q₁ q₂ : Player}
    (hcs : ∀ p, scan p cs = .passed p) (h₁ : scan p₁ (encode body ++ cs) = .passed q₁)
    (h₂ : scan p₂ (encode body ++ cs) = .passed q₂) (hclear : q₁.lastR = false ∧ q₁.lastN = false)
    (hset : q₂.lastR = true) : ∀ b ∈ body, Negotiation b ∨ b = iac := by
  have hopen : ∀ b ∈ body, ¬ Closing b := by
    intro b hb hclose
    obtain ⟨q, hq⟩ := scan_encode_closing ⟨b, hb, hclose⟩ p₁ cs
    simp [hq] at h₁
  rw [scan_encode hopen, hcs] at h₁ h₂
  obtain rfl := Scan.passed.inj h₁
  obtain rfl := Scan.passed.inj h₂
  rcases Player.flags_foldl_feed body with hinert | hother | hline
  · exact hinert
  · simp [(hother p₂).1] at hset
  · have := hline p₁
    simp [hclear.1, hclear.2] at this

/-- A sequence that can follow a letter, and a letter and CR, is inert. -/
theorem inert_of_transparent {s : Sequence}
    (hletter : Transparent p [97] ([97] ++ s.wire))
    (hline : Transparent p [97, cr] ([97, cr] ++ s.wire)) : s.Inert := by
  have hstart : ∀ cs, scan p (97 :: cs) = scan (p.receive 97) cs :=
    fun cs => scan_receive (by decide) (by decide) p cs
  have hnext : ∀ cs, scan (p.receive 97) (cr :: cs) = scan ((p.receive 97).receive cr) cs :=
    fun cs => scan_receive (by decide) (by decide) _ cs
  have hclear : (p.receive 97).lastR = false ∧ (p.receive 97).lastN = false :=
    Player.receive_other (by decide) (by decide)
  have hset : ((p.receive 97).receive cr).lastR = true := by
    rw [Player.receive, if_neg (by decide), if_neg (by decide), if_pos rfl, hclear.2]
    rfl
  obtain ⟨q, q₁, hq, h₁, hsame₁⟩ := transparent_iff_scan.mp hletter
  obtain ⟨r, q₂, hr, h₂, hsame₂⟩ := transparent_iff_scan.mp hline
  rw [hstart, scan_nil] at hq
  rw [hstart, hnext, scan_nil] at hr
  obtain rfl := Scan.passed.inj hq
  obtain rfl := Scan.passed.inj hr
  rw [List.singleton_append, hstart] at h₁
  rw [List.cons_append, List.singleton_append, hstart, hnext] at h₂
  rw [hsame₁.lastR, hsame₁.lastN] at hclear
  rw [hsame₂.lastR] at hset
  cases s with
  | command c plain => trivial
  | negotiate verb isVerb option =>
      have hverb : verb ∈ sb :: se :: verbs := by simp [isVerb]
      rw [Sequence.wire, scan_opening hverb] at h₁ h₂
      have hiac : option ≠ iac := by
        rintro rfl
        simp +decide [scan] at h₁
      have hwire : encode [option] ++ [] = [option] := by simp [encode, hiac]
      rw [← hwire] at h₁ h₂
      have hinert := inert_of_flags scan_nil h₁ h₂ hclear hset
      exact (hinert option List.mem_cons_self).resolve_right hiac
  | subnegotiate body =>
      rw [Sequence.wire, scan_opening (by simp)] at h₁ h₂
      have hclosing : ∀ p, scan p [iac, se] = .passed p := fun p => scan_opening (by simp) p []
      exact inert_of_flags hclosing h₁ h₂ hclear hset

theorem Inserted.at_end {s : Sequence} (hs : s ∈ S) (t : List UInt8) :
    Inserted S t (t ++ s.wire) := by
  induction t with
  | nil => simpa using Inserted.sequence hs .nil
  | cons c t ih => exact .char c ih

/-- The sequences of a set can be put into every text without a trace in the
input, and without closing the session, exactly when all of them are inert. -/
theorem transparent_iff_inert (p : Player) (S : Set Sequence) :
    (∀ t t', Text t → Inserted S t t' → Transparent p t t') ↔
      ∀ s ∈ S, s.Inert := by
  constructor
  · intro htransparent s hs
    apply inert_of_transparent (p := p)
    · exact htransparent _ _ (by decide) (.at_end hs _)
    · exact htransparent _ _ (by decide) (.at_end hs _)
  · intro hS t t' htext hin
    exact transparent_iff_scan.mpr (scan_inserted hS htext hin (.refl p))

/-- `IAC WILL 65` within a word: the option byte is taken for the letter A. -/
theorem option_not_transparent :
    Inserted {.negotiate will (by decide) 65} [104, 105] [104, iac, will, 65, 105] ∧
      Text [104, 105] ∧
      ¬ Transparent playerNew [104, 105] [104, iac, will, 65, 105] := by
  refine ⟨.char 104 (.sequence (Set.mem_singleton _) (.char 105 .nil)), by decide, ?_⟩
  rw [transparent_iff_scan]
  rintro ⟨q, q', hq, hq', hsame⟩
  obtain rfl : (playerNew.receive 104).receive 105 = q := Scan.passed.inj hq
  obtain rfl : ((playerNew.receive 104).receive 65).receive 105 = q' := Scan.passed.inj hq'
  exact absurd hsame.ibufferPtr (by decide)

end ThreeW3.Input
