/-
# One chunk of input

What `process_input` does with the bytes that FIONREAD reported, as a function of
these bytes alone. The loop agrees with it as long as the last of them is not an
IAC whose command byte has not come; then it reads on.
-/

import ThreeW3.Input.Model

namespace ThreeW3.Input

/-! ## Reads that succeed -/

/-- The outcomes are reads of these bytes, some of them tried again. -/
inductive Delivers : List Outcome → List UInt8 → Prop
  | nil : Delivers [] []
  | byte {reads cs} (c) : Delivers reads cs → Delivers (.byte c :: reads) (c :: cs)
  | again {reads c cs} : Delivers reads (c :: cs) → Delivers (.again :: reads) (c :: cs)

/-- Reads that succeed at once. -/
theorem Delivers.bytes (cs : List UInt8) : Delivers (cs.map .byte) cs := by
  induction cs with
  | nil => exact .nil
  | cons c cs ih => exact .byte c ih

theorem Delivers.split {reads : List Outcome} {xs ys : List UInt8}
    (hd : Delivers reads (xs ++ ys)) :
    ∃ r₁ r₂, reads = r₁ ++ r₂ ∧ Delivers r₁ xs ∧ Delivers r₂ ys := by
  generalize hzs : xs ++ ys = zs at hd
  induction hd generalizing xs with
  | nil =>
      obtain ⟨rfl, rfl⟩ := List.append_eq_nil_iff.mp hzs
      exact ⟨[], [], rfl, .nil, .nil⟩
  | @byte reads cs c hd ih =>
      cases xs with
      | nil =>
          obtain rfl : ys = c :: cs := hzs
          exact ⟨[], _, rfl, .nil, .byte c hd⟩
      | cons x xs =>
          obtain ⟨rfl, rfl⟩ := List.cons_eq_cons.mp hzs
          obtain ⟨r₁, r₂, rfl, h₁, h₂⟩ := ih rfl
          exact ⟨.byte x :: r₁, r₂, rfl, .byte x h₁, h₂⟩
  | @again reads c cs hd ih =>
      cases xs with
      | nil =>
          obtain rfl : ys = c :: cs := hzs
          exact ⟨[], _, rfl, .nil, .again hd⟩
      | cons x xs =>
          obtain ⟨r₁, r₂, rfl, h₁, h₂⟩ := ih hzs
          exact ⟨.again :: r₁, r₂, rfl, .again h₁, h₂⟩

/-- `socket_read` tries again until it has the next byte. -/
theorem socketRead_delivers {reads : List Outcome} {b : UInt8} {cs : List UInt8}
    (hd : Delivers reads (b :: cs)) (c : UInt8) (later : List Outcome) :
    ∃ reads', socketRead c (reads ++ later) = some (1, b, reads' ++ later) ∧
      Delivers reads' cs := by
  generalize hbs : b :: cs = bs at hd
  induction hd with
  | nil => cases hbs
  | byte d hd =>
      obtain ⟨rfl, rfl⟩ := List.cons_eq_cons.mp hbs
      exact ⟨_, rfl, hd⟩
  | again hd ih => exact ih hbs

/-! ## The scan of a chunk -/

/-- How a chunk leaves the session: it goes on, it is closed, or the chunk ends
between an IAC and its command byte. -/
inductive Scan
  | passed (p : Player)
  | closed (p : Player)
  | halfPair (p : Player)

def scan : Player → List UInt8 → Scan
  | p, [] => .passed p
  | p, [c] =>
      if Closing c then .closed p
      else if c = iac then .halfPair p
      else .passed (p.receive c)
  | p, c :: d :: cs =>
      if Closing c then .closed p
      else if c = iac then
        if d = ip then .closed p else scan (p.command d) cs
      else scan (p.receive c) (d :: cs)

/-- The chunk ends with an IAC that is not a command byte, and nothing before it
closes the session. -/
def EndsInIac : List UInt8 → Prop
  | [] => False
  | [c] => c = iac
  | c :: d :: cs =>
      ¬ Closing c ∧ if c = iac then d ≠ ip ∧ EndsInIac cs else EndsInIac (d :: cs)

instance decidableEndsInIac : (cs : List UInt8) → Decidable (EndsInIac cs)
  | [] => inferInstanceAs (Decidable False)
  | [c] => inferInstanceAs (Decidable (c = iac))
  | c :: d :: cs =>
      have := decidableEndsInIac cs
      have := decidableEndsInIac (d :: cs)
      inferInstanceAs (Decidable (¬ Closing c ∧
        if c = iac then d ≠ ip ∧ EndsInIac cs else EndsInIac (d :: cs)))

@[simp] theorem scan_nil (p : Player) : scan p [] = .passed p := by
  rw [scan]

theorem scan_closing {c : UInt8} (hc : Closing c) (p : Player) (cs : List UInt8) :
    scan p (c :: cs) = .closed p := by
  cases cs <;> simp only [scan, if_pos hc]

theorem scan_receive {c : UInt8} (hclose : ¬ Closing c) (hiac : c ≠ iac) (p : Player)
    (cs : List UInt8) : scan p (c :: cs) = scan (p.receive c) cs := by
  cases cs <;> simp only [scan, if_neg hclose, if_neg hiac]

theorem scan_command {d : UInt8} (hip : d ≠ ip) (p : Player) (cs : List UInt8) :
    scan p (iac :: d :: cs) = scan (p.command d) cs := by
  rw [scan, if_neg (by decide), if_pos rfl, if_neg hip]

/-- Only the bytes decide whether a chunk ends inside a pair. -/
theorem scan_halfPair_iff (p : Player) (chunk : List UInt8) :
    (∃ q, scan p chunk = .halfPair q) ↔ EndsInIac chunk := by
  fun_induction scan p chunk with
  | case1 => simp [EndsInIac]
  | case2 p c hclose => simp [EndsInIac, show c ≠ iac by rintro rfl; revert hclose; decide]
  | case3 p hclose => simp [EndsInIac]
  | case4 p c hclose hiac => simp [EndsInIac, hiac]
  | case5 p c d cs hclose => simp [EndsInIac, hclose]
  | case6 p cs hclose => simp [EndsInIac]
  | case7 p d cs hip hclose ih => simp [EndsInIac, ih, hip, hclose]
  | case8 p c d cs hclose hiac ih => rw [ih, EndsInIac, if_neg hiac, and_iff_right hclose]

/-! ## The loop and the scan -/

/-- The loop has asked for something past the outcomes before `later`. -/
def Result.Overreads (r : Result) (later : List Outcome) : Prop :=
  match r with
  | .returned _ rest => rest.length < later.length
  | .closed _ rest => rest.length < later.length
  | .blocked _ => True

theorem Result.Overreads.mono {r : Result} {reads later : List Outcome} (hr : r.Overreads reads)
    (hlen : reads.length ≤ later.length) : r.Overreads later := by
  cases r with
  | returned q rest => exact lt_of_lt_of_le hr hlen
  | closed q rest => exact lt_of_lt_of_le hr hlen
  | blocked q => trivial

/-- After a read the loop stops, or reads on. -/
private theorem overreads_of_read {p : Player} {c : UInt8} {size : ℤ}
    {reads reads' : List Outcome} (hlt : reads'.length < reads.length)
    (hnext : size ≠ 0 → (processLoop p c size reads').Overreads reads') :
    (processLoop p c size reads').Overreads reads := by
  by_cases hsize : size = 0
  · rw [hsize, processLoop, if_pos rfl]
    exact hlt
  · exact (hnext hsize).mono hlt.le

/-- A loop that does not stop at once reads. -/
theorem processLoop_overreads (p : Player) (c : UInt8) {size : ℤ} (reads : List Outcome)
    (hsize : size ≠ 0) : (processLoop p c size reads).Overreads reads := by
  fun_induction processLoop p c size reads with
  | case1 => exact absurd rfl hsize
  | case2 => trivial
  | case3 _ _ _ _ _ _ _ _ hread => exact socketRead_length hread
  | case4 _ _ _ _ _ _ _ _ hread => exact socketRead_length hread
  | case5 => trivial
  | case6 =>
      rename_i hread _ hcommand
      exact (socketRead_length hcommand).trans (socketRead_length hread)
  | case7 =>
      rename_i hread _ hcommand
      exact (socketRead_length hcommand).trans (socketRead_length hread)
  | case8 =>
      rename_i hread _ hcommand ih
      exact overreads_of_read ((socketRead_length hcommand).trans (socketRead_length hread)) ih
  | case9 _ _ _ _ _ _ _ _ hread _ _ _ ih =>
      exact overreads_of_read (socketRead_length hread) ih

/-- What a scan says of the loop. A chunk that ends inside a pair makes the loop
read past it. -/
def Scan.Describes (s : Scan) (r : Result) (later : List Outcome) : Prop :=
  match s with
  | .passed p => r = .returned p later
  | .closed p => ∃ rest, r = .closed p (rest ++ later)
  | .halfPair _ => r.Overreads later

/-! ### One iteration -/

theorem processLoop_zero (p : Player) (c : UInt8) (reads : List Outcome) :
    processLoop p c 0 reads = .returned p reads := by
  rw [processLoop, if_pos rfl]

/-- One iteration on a byte that is not IAC. -/
theorem processLoop_byte {p : Player} {c b : UInt8} {size : ℤ} {reads rest : List Outcome}
    (hsize : size ≠ 0) (hread : socketRead c reads = some (1, b, rest)) (hiac : b ≠ iac) :
    processLoop p c size reads =
      if Closing b then .closed p rest else processLoop (p.receive b) b (size - 1) rest := by
  rw [processLoop, if_neg hsize]
  split
  · next h => simp [hread] at h
  · next h =>
      obtain ⟨rfl, rfl, rfl⟩ := by simpa [hread] using h
      rw [if_neg (by omega), if_neg hiac]

/-- One iteration on an IAC pair. -/
theorem processLoop_pair {p : Player} {c d : UInt8} {size : ℤ} {reads rest rest' : List Outcome}
    (hsize : size ≠ 0) (hread : socketRead c reads = some (1, iac, rest))
    (hcommand : socketRead iac rest = some (1, d, rest')) :
    processLoop p c size reads =
      if d = ip then .closed p rest' else processLoop (p.command d) d (size - 1 - 1) rest' := by
  rw [processLoop, if_neg hsize]
  split
  · next h => simp [hread] at h
  · next h =>
      obtain ⟨rfl, rfl, rfl⟩ := by simpa [hread] using h
      rw [if_neg (by omega), if_neg (by decide), if_pos rfl]
      split
      · next h' => simp [hcommand] at h'
      · next h' =>
          obtain ⟨rfl, rfl, rfl⟩ := by simpa [hcommand] using h'
          rw [if_neg (by omega)]

/-- An IAC as the last byte makes the loop ask for another, and `size` skips zero. -/
theorem processLoop_last_iac {p : Player} {c : UInt8} {reads rest : List Outcome}
    (hread : socketRead c reads = some (1, iac, rest)) :
    (processLoop p c 1 reads).Overreads rest := by
  rw [processLoop, if_neg (by omega)]
  split
  · next h => simp [hread] at h
  · next h =>
      obtain ⟨rfl, rfl, rfl⟩ := by simpa [hread] using h
      rw [if_neg (by omega), if_neg (by decide), if_pos rfl]
      split
      · trivial
      · next hcommand =>
          have hlt := socketRead_length hcommand
          split_ifs
          · exact hlt
          · exact hlt
          · exact overreads_of_read hlt (processLoop_overreads _ _ _)

/-- The loop over a chunk that can be read does what the scan says. -/
theorem processLoop_scan {chunk : List UInt8} {reads : List Outcome} (hd : Delivers reads chunk)
    (p : Player) (c : UInt8) (later : List Outcome) :
    (scan p chunk).Describes (processLoop p c chunk.length (reads ++ later)) later := by
  fun_induction scan p chunk generalizing reads c with
  | case1 =>
      cases hd
      exact processLoop_zero _ _ _
  | case2 p b hclose =>
      obtain ⟨rest, hread, -⟩ := socketRead_delivers hd c later
      rw [processLoop_byte (by simp) hread (by rintro rfl; revert hclose; decide), if_pos hclose]
      exact ⟨rest, rfl⟩
  | case3 p hclose =>
      obtain ⟨rest, hread, hrest⟩ := socketRead_delivers hd c later
      cases hrest
      exact processLoop_last_iac hread
  | case4 p b hclose hiac =>
      obtain ⟨rest, hread, hrest⟩ := socketRead_delivers hd c later
      cases hrest
      rw [processLoop_byte (by simp) hread hiac, if_neg hclose]
      exact processLoop_zero _ _ _
  | case5 p b d cs hclose =>
      obtain ⟨rest, hread, -⟩ := socketRead_delivers hd c later
      rw [processLoop_byte (by simp; omega) hread (by rintro rfl; revert hclose; decide),
        if_pos hclose]
      exact ⟨rest, rfl⟩
  | case6 p cs hclose =>
      obtain ⟨rest, hread, hrest⟩ := socketRead_delivers hd c later
      obtain ⟨rest', hcommand, -⟩ := socketRead_delivers hrest iac later
      rw [processLoop_pair (by simp; omega) hread hcommand, if_pos rfl]
      exact ⟨rest', rfl⟩
  | case7 p d cs hip hclose ih =>
      obtain ⟨rest, hread, hrest⟩ := socketRead_delivers hd c later
      obtain ⟨rest', hcommand, hrest'⟩ := socketRead_delivers hrest iac later
      rw [processLoop_pair (by simp; omega) hread hcommand, if_neg hip]
      simpa using ih hrest' d
  | case8 p b d cs hclose hiac ih =>
      obtain ⟨rest, hread, hrest⟩ := socketRead_delivers hd c later
      rw [processLoop_byte (by simp; omega) hread hiac, if_neg hclose]
      simpa using ih hrest b

/-- `process_input` on a chunk that FIONREAD reports and that can be read. -/
theorem processInput_scan {chunk : List UInt8} {reads : List Outcome} (hne : chunk ≠ [])
    (hd : Delivers reads chunk) (p : Player) (c : UInt8) (later : List Outcome) :
    (scan p chunk).Describes (processInput p c (some chunk.length) (reads ++ later)) later := by
  have hlen : ¬ (chunk.length : ℤ) ≤ 0 := by
    have := List.length_pos_of_ne_nil hne
    omega
  simpa only [processInput, if_neg hlen] using processLoop_scan hd p c later

/-! ## Consumption -/

/-- `process_input` returns with exactly the outcomes before `later` used, or
closes the session with no more of them used. -/
def Result.Consumes (r : Result) (later : List Outcome) : Prop :=
  match r with
  | .returned _ rest => rest = later
  | .closed _ rest => later <:+ rest
  | .blocked _ => False

theorem Result.Overreads.not_consumes {r : Result} {later : List Outcome}
    (hr : r.Overreads later) : ¬ r.Consumes later := by
  cases r with
  | returned p rest => exact fun h => absurd (congrArg List.length h) (ne_of_lt hr)
  | closed p rest => exact fun h => absurd h.length_le (not_le_of_gt hr)
  | blocked p => exact id

theorem Scan.Describes.consumes_iff {s : Scan} {r : Result} {later : List Outcome}
    (hs : s.Describes r later) : r.Consumes later ↔ ¬ ∃ p, s = .halfPair p := by
  cases s with
  | passed p =>
      obtain rfl : r = .returned p later := hs
      simp [Result.Consumes]
  | closed p =>
      obtain ⟨rest, rfl⟩ : ∃ rest, r = .closed p (rest ++ later) := hs
      simp [Result.Consumes]
  | halfPair p => simpa using Result.Overreads.not_consumes hs

/-- A chunk is read to its last byte and no further exactly when that byte is not
an IAC without its command. -/
theorem processInput_consumes_iff {chunk : List UInt8} {reads : List Outcome}
    (hne : chunk ≠ []) (hd : Delivers reads chunk) (p : Player) (c : UInt8)
    (later : List Outcome) :
    (processInput p c (some chunk.length) (reads ++ later)).Consumes later ↔
      ¬ EndsInIac chunk := by
  rw [(processInput_scan hne hd p c later).consumes_iff, scan_halfPair_iff]

/-- A line with an interrupted read and a pair in it. -/
theorem greeting_consumes :
    (processInput playerNew 0 (some 5)
      ([.byte 104, .again, .byte 105, .byte iac, .byte ayt, .byte cr] ++ [.byte lf])).Consumes
        [.byte lf] :=
  (processInput_consumes_iff (by decide)
    (.byte _ (.again (.byte _ (.byte _ (.byte _ (.byte _ .nil)))))) playerNew 0 [.byte lf]).mpr
    (by decide)

/-- FIONREAD reports one byte, an IAC. Its command comes later, and so do two
bytes of text; the loop takes all three and waits for more. -/
theorem lone_iac_not_consumes :
    ¬ (processInput playerNew 0 (some 1)
      ([.byte iac] ++ [.byte ayt, .byte 104, .byte 105])).Consumes
        [.byte ayt, .byte 104, .byte 105] := by
  simp +decide [processInput, processLoop, socketRead, Result.Consumes]

end ThreeW3.Input
