/-
# Dialogues

A user who types line by line, with corrections: each line comes in one chunk, the erasures
are echoed, and the server of lines answers. After the welcome a session writes this and
nothing else.
-/

import ThreeW3.Input.Conversation

namespace ThreeW3.Input

open ThreeW3.Lib

variable {stage : LineServer} {s : Session Login} {p q : Player} {ready : Bool} {l : Line}

/-! ## Echoes -/

/-- What is written while a key is handled. -/
def Key.echo : Key → List Notice
  | character _ _ => []
  | backspace => [.eraseCharacter]
  | delete => [.eraseCharacter]
  | eraseCharacter => [.eraseCharacter]
  | eraseLine => []
  | ignored _ _ => []

def Line.echo (l : Line) : List Utterance := (l.keys.flatMap Key.echo).map .notice

/-- All that is written for these lines. -/
def LineServer.dialogue (stage : LineServer) : List Line → List Utterance
  | [] => []
  | l :: lines =>
      if stage = .ended then []
      else l.echo ++ (stage.hear l.text).2 ++ (stage.hear l.text).1.dialogue lines

/-- A chunk that goes through may be scanned in two parts. -/
theorem scan_append {a : List UInt8} (hq : scan p a = .passed q) (b : List UInt8) :
    scan p (a ++ b) = scan q b := by
  fun_induction scan p a with
  | case1 p =>
      obtain rfl := Scan.passed.inj hq
      rfl
  | case2 => cases hq
  | case3 => cases hq
  | case4 p c hclose hiac =>
      obtain rfl := Scan.passed.inj hq
      exact scan_receive hclose hiac p b
  | case5 => cases hq
  | case6 => cases hq
  | case7 p d cs hip hclose ih => exact (scan_command hip p (cs ++ b)).trans (ih hq)
  | case8 p c d cs hclose hiac ih => exact (scan_receive hclose hiac p (d :: cs ++ b)).trans (ih hq)

theorem sent_receive_lineEnd {c : UInt8} (hc : LineEnd c) : (p.receive c).sent = p.sent := by
  rcases hc with rfl | rfl
  · rw [Player.receive, if_neg (by decide), if_pos rfl]
    split_ifs <;> rfl
  · rw [Player.receive, if_neg (by decide), if_neg (by decide), if_pos rfl]
    split_ifs <;> rfl

theorem not_rubout_of_ignored {c : UInt8} (hc : Ignored c) :
    ¬ (c = 8 ∨ c = 127) ∧ ¬ Printable c := by
  constructor
  · rintro (rfl | rfl) <;> revert hc <;> decide
  · rintro ⟨hlow, hhigh⟩
    rw [UInt8.lt_iff_toNat_lt] at hlow hhigh
    rcases hc with ⟨hc, -⟩ | ⟨hc, -⟩
    · rw [UInt8.lt_iff_toNat_lt] at hc
      exact absurd hlow (by simpa using Nat.le_of_lt_succ hc)
    · rw [UInt8.le_iff_toNat_le] at hc
      exact absurd (hc.trans_lt hhigh) (by decide)

theorem sent_receive_ignored {c : UInt8} (hc : Ignored c) : (p.receive c).sent = p.sent := by
  obtain ⟨hdel, hprint⟩ := not_rubout_of_ignored hc
  rw [Player.receive]
  dsimp only
  rw [if_neg hdel, if_neg hprint]
  split_ifs <;> rfl

/-- The erasures are echoed, and no other key. -/
theorem Holds.sent_key {w : List UInt8} (h : Holds p w ready) {k : Key}
    (hfits : (k.edit w).length ≤ bufsiz) (hq : scan p k.wire = .passed q) :
    q.sent = p.sent ++ k.echo := by
  cases k with
  | character c hc =>
      have htext : IsText c := .inl hc
      have hroom : p.ibufferPtr < bufsiz := by
        simp only [Key.edit, List.length_append, List.length_singleton] at hfits
        rw [h.ibufferPtr]
        omega
      rw [Key.wire, scan_receive htext.not_closing htext.ne_iac, scan_nil] at hq
      obtain rfl := Scan.passed.inj hq
      rw [Player.receive_printable hc, Player.append, dif_pos hroom, Key.echo, List.append_nil]
  | backspace | delete =>
      rw [Key.wire, scan_receive (by decide) (by decide), scan_nil] at hq
      obtain rfl := Scan.passed.inj hq
      rfl
  | eraseCharacter =>
      rw [Key.wire, scan_command (by decide), scan_nil] at hq
      obtain rfl := Scan.passed.inj hq
      rfl
  | eraseLine =>
      rw [Key.wire, scan_command (by decide), scan_nil] at hq
      obtain rfl := Scan.passed.inj hq
      exact (List.append_nil _).symm
  | ignored c hc =>
      obtain ⟨hclosing, hiac⟩ := not_closing_of_ignored hc
      rw [Key.wire, scan_receive hclosing hiac, scan_nil] at hq
      obtain rfl := Scan.passed.inj hq
      rw [sent_receive_ignored hc, Key.echo, List.append_nil]

theorem Holds.keys_echo {w : List UInt8} (h : Holds p w ready) {ks : List Key}
    (hfits : Fits w ks) :
    ∃ q, scan p (ks.flatMap Key.wire) = .passed q ∧ Holds q (ks.foldl Key.edit w) ready ∧
      q.sent = p.sent ++ ks.flatMap Key.echo := by
  induction ks generalizing p w with
  | nil => exact ⟨p, scan_nil p, h, (List.append_nil _).symm⟩
  | cons k ks ih =>
      have hnext : (k.edit w).length ≤ bufsiz := by
        cases ks with
        | nil => exact hfits.2
        | cons _ _ => exact hfits.2.1
      obtain ⟨q, hq, hholds⟩ := h.key hnext []
      rw [List.append_nil, scan_nil] at hq
      obtain ⟨q', hq', hholds', hsent⟩ := ih hholds hfits.2
      refine ⟨q', ?_, hholds', ?_⟩
      · rw [List.flatMap_cons, scan_append hq, hq']
      · rw [hsent, h.sent_key hnext hq, List.flatMap_cons, List.append_assoc]

theorem sent_ending (e : Ending) (hq : scan p e.wire = .passed q) : q.sent = p.sent := by
  have hstep : ∀ {p : Player} {c}, LineEnd c → ∀ rest,
      scan p (c :: rest) = scan (p.receive c) rest := by
    intro p c hc rest
    have htext : IsText c := .inr hc.symm
    exact scan_receive htext.not_closing htext.ne_iac p rest
  cases e with
  | cr =>
      rw [Ending.wire, hstep (.inr rfl), scan_nil] at hq
      obtain rfl := Scan.passed.inj hq
      exact sent_receive_lineEnd (.inr rfl)
  | lf =>
      rw [Ending.wire, hstep (.inl rfl), scan_nil] at hq
      obtain rfl := Scan.passed.inj hq
      exact sent_receive_lineEnd (.inl rfl)
  | crlf =>
      rw [Ending.wire, hstep (.inr rfl), hstep (.inl rfl), scan_nil] at hq
      obtain rfl := Scan.passed.inj hq
      exact (sent_receive_lineEnd (.inl rfl)).trans (sent_receive_lineEnd (.inr rfl))

/-! ## Lines -/

/-- A typed line goes through, with its echo. -/
theorem Line.goes_through (hfits : Fits [] l.keys) (h : Holds p [] ready) :
    ∃ q, scan p l.wire = .passed q ∧ Holds q l.text true ∧ p.news q = l.echo := by
  obtain ⟨q, hq, hholds, hsent⟩ := h.keys_echo hfits
  obtain ⟨q', hq', hholds'⟩ := hholds.ending l.ending
  refine ⟨q', by rw [Line.wire, scan_append hq, hq'], hholds', ?_⟩
  rw [Player.news, sent_ending l.ending hq', hsent, List.drop_left]
  rfl

theorem printable_edit {w : List UInt8} (hw : ∀ c ∈ w, Printable c) (k : Key) :
    ∀ c ∈ k.edit w, Printable c := by
  cases k with
  | character d hd =>
      intro c hc
      rcases List.mem_append.mp hc with hc | hc
      · exact hw c hc
      · rwa [List.mem_singleton.mp hc]
  | backspace | delete | eraseCharacter => exact fun c hc => hw c (List.dropLast_subset w hc)
  | eraseLine => exact fun c hc => absurd hc List.not_mem_nil
  | ignored => exact hw

theorem Line.printable_text (l : Line) : ∀ c ∈ l.text, Printable c := by
  have hkeys : ∀ (ks : List Key) (w : List UInt8), (∀ c ∈ w, Printable c) →
      ∀ c ∈ ks.foldl Key.edit w, Printable c := by
    intro ks
    induction ks with
    | nil => exact fun w hw => hw
    | cons k ks ih => exact fun w hw => ih _ (printable_edit hw k)
  exact hkeys l.keys [] (by simp)

/-- A round over a typed line writes its echo and the answer to it. -/
theorem written_line (hrun : s.status = .running) (hholds : Holds s.player [] ready)
    (hstage : stage.Matches s.mode) (hfits : Fits [] l.keys) (hne : l.wire ≠ [])
    {reads later : List Outcome} (hd : Delivers reads l.wire) (hreads : s.reads = reads ++ later)
    (c : UInt8) :
    ∃ q, Holds q l.text true ∧ Printed l.text ∧
      s.round server (.readable (some (l.wire.length : ℤ)) c) =
        Session.dispatch server { s with player := q, reads := later } ∧
      s.written (.readable (some (l.wire.length : ℤ)) c) =
        l.echo ++ (stage.hear l.text).2 := by
  obtain ⟨q, hscan, hq, hnews⟩ := Line.goes_through hfits hholds
  have hprinted : Printed l.text := ⟨hq.ibufferPtr ▸ q.ptr_le, l.printable_text⟩
  have hresult := processInput_scan hne hd s.player c later
  rw [hscan, ← hreads] at hresult
  have hlogout : ¬ server.logout s.mode = true := Bool.false_ne_true
  refine ⟨q, hq, hprinted, round_chunk hrun hlogout hne hd hreads hscan c, ?_⟩
  obtain hresult : processInput s.player c (some l.wire.length) s.reads = .returned q later :=
    hresult
  have hcall : (⟨q.ibuffer, q.ibufferPtr⟩ : Call) = .ofText l.text := by
    rw [hq.ibuffer, hq.ibufferPtr]
    rfl
  rw [Session.written.eq_def, if_neg (not_not.mpr hrun)]
  simp only [hresult, hnews, hq.ready_eq, if_true, hcall, (hstage.hears hprinted).1]

theorem LineServer.Matches.ne_ended (h : stage.Matches m) : stage ≠ .ended := by
  rintro rfl
  exact h

theorem LineServer.dialogue_ended (lines : List Line) : LineServer.ended.dialogue lines = [] := by
  cases lines with
  | nil => rfl
  | cons l lines => exact if_pos rfl

theorem transcript_of_cuts {rounds : List Round} {A : List (List UInt8)} (hcuts : Cuts rounds A)
    {lines : List Line} (hlines : A = lines.map Line.wire)
    (hfits : ∀ l ∈ lines, Fits [] l.keys) {reads later : List Outcome}
    (hrun : s.status = .running) (hholds : Holds s.player [] ready)
    (hstage : stage.Matches s.mode) (hd : Delivers reads A.flatten)
    (hreads : s.reads = reads ++ later) :
    transcript s rounds = stage.dialogue lines := by
  have hlogout : ∀ m, ¬ server.logout m = true := fun _ => Bool.false_ne_true
  induction hcuts generalizing s lines stage ready reads with
  | nil =>
      obtain rfl := List.map_eq_nil_iff.mp hlines.symm
      rfl
  | interrupted hcuts ih =>
      rw [transcript, round_interrupted hrun (hlogout _), Session.written.eq_def,
        if_neg (not_not.mpr hrun)]
      exact ih hlines hfits hrun hholds hstage hd hreads
  | idle hcuts ih =>
      rw [transcript, round_idle hrun (hlogout _), Session.written.eq_def,
        if_neg (not_not.mpr hrun)]
      exact ih hlines hfits hrun hholds hstage hd hreads
  | @chunk rounds A a c hne hcuts ih =>
      obtain ⟨l, lines, rfl, rfl, rfl⟩ := List.map_eq_cons_iff.mp hlines.symm
      rw [List.flatten_cons] at hd
      obtain ⟨r₁, r₂, rfl, hd₁, hd₂⟩ := hd.split
      rw [List.append_assoc] at hreads
      obtain ⟨q, hq, hprinted, hround, hwritten⟩ :=
        written_line hrun hholds hstage (hfits l List.mem_cons_self) hne hd₁ hreads c
      obtain ⟨-, hnext⟩ := hstage.hears hprinted
      have hrest : ∀ l ∈ lines, Fits [] l.keys := fun l hl => hfits l (List.mem_cons_of_mem _ hl)
      rw [transcript, hwritten, hround, LineServer.dialogue, if_neg hstage.ne_ended,
        dispatch_ready hq]
      congr 1
      cases hmode : (s.mode.callMode (.ofText l.text)).2 with
      | none =>
          have hclosed : server.fMode s.mode (padded l.text) l.text.length = none := hmode
          simp only [hclosed]
          rw [transcript_stopped (by simp [Session.close]), hstage.ends hprinted hmode,
            LineServer.dialogue_ended]
      | some mode =>
          have hgoes : server.fMode s.mode (padded l.text) l.text.length = some mode := hmode
          simp only [hgoes]
          exact ih rfl hrest hrun (hq.wipe .prompt) (hnext mode hmode) hd₂ rfl

/-- Lines that come one in a chunk: after the welcome the session writes the echo of each and
the answer to it, until the conversation ends, and nothing else. -/
theorem lines_conversed (lines : List Line) (hfits : ∀ l ∈ lines, Fits [] l.keys)
    {rounds : List Round} {reads later : List Outcome}
    (hcuts : Cuts rounds (lines.map Line.wire))
    (hd : Delivers reads (lines.map Line.wire).flatten) :
    transcript (.start loginNew (reads ++ later)) rounds = LineServer.nameless.dialogue lines :=
  transcript_of_cuts hcuts rfl hfits rfl .new ⟨rfl, rfl⟩ hd rfl

/-- The keys of a text. -/
def Key.ofText (w : List UInt8) (hw : (w.all fun c => decide (Printable c)) = true) : List Key :=
  w.attach.map fun c => .character c.1 (of_decide_eq_true (List.all_eq_true.mp hw c.1 c.2))

/-- A name with a slip, a command, and the end. -/
def visit : List Line :=
  [⟨Key.ofText [97, 49] (by decide) ++ .backspace :: Key.ofText [98] (by decide), .crlf⟩,
    ⟨Key.ofText [119, 104, 111] (by decide), .lf⟩,
    ⟨Key.ofText [113, 117, 105, 116] (by decide), .cr⟩]

example : LineServer.nameless.dialogue visit =
    [.notice .eraseCharacter, .notice .prompt, .ran .who, .notice .prompt, .ran .quit] := by
  decide +kernel

theorem visit_conversed :
    transcript (.start loginNew ((visit.map Line.wire).flatten.map .byte ++ []))
        ((visit.map Line.wire).map fun a => .readable (some (a.length : ℤ)) 0) =
      LineServer.nameless.dialogue visit :=
  lines_conversed visit (by decide)
    (.chunk 0 (by decide) (.chunk 0 (by decide) (.chunk 0 (by decide) .nil))) (.bytes _)

end ThreeW3.Input
