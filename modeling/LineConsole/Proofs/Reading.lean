import LineConsole.Console
import LineConsole.Proofs.Fallible
import LineConsole.Proofs.Content
import LineConsole.Proofs.Delivery

/-!
What a console reads, call by call. One call takes the next piece of the input from the channel,
byte by byte and no byte more, and gives its content. Repeated calls therefore give the contents
of all pieces in order, and then report the end of the input for good.
-/
namespace LineConsole.Console

open LineBuffer Channel Pieces Fallible

variable {σ : Type} [Channel σ]

/-- Bytes that end no piece are taken one after the other. -/
theorem fill_delivered {s t : σ} {bytes : Bytes} (h : Delivers s bytes t)
    (hmem : LineBuffer.newline ∉ bytes) (w : Bytes) (room : Nat)
    (hroom : w.length + bytes.length ≤ limit) :
    fill (bytes.length + room) ⟨s, ofBytes w⟩ = fill room ⟨t, ofBytes (w ++ bytes)⟩ := by
  induction bytes generalizing s w with
  | nil =>
    obtain rfl := h
    simp
  | cons byte rest ih =>
    obtain ⟨u, hread, hrest⟩ := h
    have hbyte : byte ≠ LineBuffer.newline := fun heq => hmem (by simp [heq])
    have hmem' : LineBuffer.newline ∉ rest := fun hin => hmem (List.mem_cons_of_mem _ hin)
    rw [List.length_cons] at hroom
    have hpush := push_ofBytes w byte (show w.length < limit by omega)
    have hnext := ih hrest hmem' (w ++ [byte])
      (by simp only [List.length_append, List.length_singleton]; omega)
    rw [List.length_cons, Nat.add_right_comm, fill, hread]
    simp only [hpush, if_neg hbyte]
    rw [hnext, List.append_assoc, List.singleton_append]

theorem fill_limit (c : Console σ) :
    fill (capacity - 1) { c with line := .empty } = fill limit ⟨c.channel, ofBytes []⟩ := rfl

theorem readLine_of_fill {c : Console σ} {t : σ} {p : Bytes}
    (h : fill limit ⟨c.channel, ofBytes []⟩ = (.ok (), ⟨t, ofBytes p⟩)) :
    readLine c = (.ok (content p), ⟨t, ofBytes (content p)⟩) := by
  rw [readLine, fill_limit, h]
  simp only [strip_ofBytes, bytes_ofBytes]

theorem readLine_of_fill_error {c c' : Console σ} {e : Fault}
    (h : fill limit ⟨c.channel, ofBytes []⟩ = (.error e, c')) : readLine c = (.error e, c') := by
  rw [readLine, fill_limit, h]

/-- A read that fails in any way forgets the bytes it has taken. -/
theorem fill_error {s : σ} {w : Bytes} {room : Nat} {e : Fault} {c : Console σ}
    (h : fill room ⟨s, ofBytes w⟩ = (.error e, c)) (hroom : w.length + room ≤ limit) :
    c.line = .empty := by
  induction room generalizing s w with
  | zero => cases h
  | succ room ih =>
    rw [fill] at h
    split at h
    · next byte t hread =>
      have hpush := push_ofBytes w byte (show w.length < limit by omega)
      simp only [hpush] at h
      split at h
      · cases h
      · exact ih h (by simp only [List.length_append, List.length_singleton]; omega)
    · next t hread =>
      split at h
      · next hempty =>
        cases h
        rw [isEmpty, length_ofBytes, decide_eq_true_eq] at hempty
        rw [List.length_eq_zero_iff.mp hempty]
        rfl
      · cases h
    · cases h
      rfl

theorem readLine_error {c c' : Console σ} {e : Fault} (h : readLine c = (.error e, c')) :
    c'.line = .empty := by
  rw [readLine, fill_limit] at h
  split at h
  · cases h
  · next e' t hfill =>
    cases h
    exact fill_error hfill (by simp)

/-- From an empty line on, an unfinished piece leaves room for one more byte. -/
theorem fill_unfinished {s t : σ} {l : Bytes} (h : Delivers s l t) (hl : Unfinished l) :
    ∃ room, l.length + room + 1 = limit ∧
      fill limit ⟨s, ofBytes []⟩ = fill (room + 1) ⟨t, ofBytes l⟩ := by
  have hlt := hl.2
  refine ⟨limit - l.length - 1, by omega, ?_⟩
  have hfill := fill_delivered h hl.1 [] (limit - l.length - 1 + 1)
    (by simpa using Nat.le_of_lt hlt)
  have hsum : l.length + (limit - l.length - 1 + 1) = limit := by omega
  rwa [hsum, List.nil_append] at hfill

/-- A call takes exactly a finished piece. -/
theorem readLine_finished {c : Console σ} {t : σ} {q : Bytes} {byte : UInt8}
    (h : Delivers c.channel (q ++ [byte]) t) (hq : Unfinished q)
    (hb : ¬ Unfinished (q ++ [byte])) :
    readLine c =
      (.ok (content (q ++ [byte])), ⟨t, ofBytes (content (q ++ [byte]))⟩) := by
  obtain ⟨u, hfront, v, hread, rfl⟩ := delivers_append.mp h
  obtain ⟨room, hroom, hfill⟩ := fill_unfinished hfront hq
  have hpush := push_ofBytes q byte hq.2
  apply readLine_of_fill
  rw [hfill, fill, hread]
  simp only [hpush]
  rcases finished_append hq hb with rfl | hlength
  · rw [if_pos rfl]
  · obtain rfl : room = 0 := by omega
    split <;> rfl

/-- The end of the input ends a piece that has begun. -/
theorem readLine_unfinished {c : Console σ} {t u : σ} {l : Bytes}
    (h : Delivers c.channel l t) (hl : Unfinished l) (hne : l ≠ [])
    (hend : readByte t = (.ok none, u)) :
    readLine c = (.ok (content l), ⟨u, ofBytes (content l)⟩) := by
  obtain ⟨room, -, hfill⟩ := fill_unfinished h hl
  have hempty : (ofBytes l).isEmpty = false := by
    rw [isEmpty, length_ofBytes]
    exact decide_eq_false (fun hzero => hne (List.length_eq_zero_iff.mp hzero))
  apply readLine_of_fill
  rw [hfill, fill, hend]
  simp [hempty]

/-- The end of the input behind the last piece is reported. -/
theorem readLine_ended {c : Console σ} {u : σ} (hend : readByte c.channel = (.ok none, u)) :
    readLine c = (.error .endOfStream, ⟨u, .empty⟩) := by
  apply readLine_of_fill_error
  rw [limit_eq, fill, hend]
  rfl

/-- A read that fails inside a piece fails as a whole. -/
theorem readLine_failed {c : Console σ} {t u : σ} {l : Bytes} {e : Fault}
    (h : Delivers c.channel l t) (hl : Unfinished l) (hfail : readByte t = (.error e, u)) :
    readLine c = (.error e, ⟨u, .empty⟩) := by
  obtain ⟨room, -, hfill⟩ := fill_unfinished h hl
  apply readLine_of_fill_error
  rw [hfill, fill, hfail]

theorem after_readLine_ended (k : Nat) {c : Console σ} (h : Ended c.channel) :
    Ended (after readLine k c).channel ∧ answer readLine k c = .error .endOfStream := by
  induction k generalizing c with
  | zero =>
    obtain ⟨u, hread, -⟩ := h.read
    rw [answer_zero, readLine_ended hread]
    exact ⟨h, rfl⟩
  | succ k ih =>
    obtain ⟨u, hread, hu⟩ := h.read
    have hnext : Ended (readLine c).2.channel := by
      rw [readLine_ended hread]
      exact hu
    exact ih hnext

/-- How a read of a served input ends: with the next piece or with the end of the input. -/
theorem answer_readLine {c : Console σ} {bytes : Bytes} (h : Serves c.channel bytes) (k : Nat) :
    answer readLine k c =
        (((cut bytes)[k]?).map fun p => .ok (content p)).getD (.error .endOfStream) ∧
      Serves (after readLine k c).channel ((cut bytes).drop k).flatten := by
  induction bytes using cut_induction generalizing c k with
  | nil =>
    have hended := after_readLine_ended k (serves_nil.mp h)
    simpa [serves_nil] using hended.symm
  | unfinished l hl hne =>
    have hserves := h
    obtain ⟨t, hdelivers, ht⟩ := h
    obtain ⟨u, hread, hu⟩ := ht.read
    have hcall := readLine_unfinished hdelivers hl hne hread
    rw [cut_unfinished hl hne]
    cases k with
    | zero =>
      refine ⟨by simp [answer_zero, hcall], ?_⟩
      simpa [after] using hserves
    | succ k =>
      have hended := after_readLine_ended k (c := (readLine c).2) (by rw [hcall]; exact hu)
      simpa [answer_succ, after, serves_nil] using hended.symm
  | finished q byte rest hq hb ih =>
    rw [List.append_cons] at h
    obtain ⟨t, hpiece, hrest⟩ := serves_append.mp h
    have hcall := readLine_finished hpiece hq hb
    have hnext := ih (c := (readLine c).2) (by rw [hcall]; exact hrest)
    rw [cut_finished rest hq hb]
    cases k with
    | zero =>
      refine ⟨by simp [answer_zero, hcall], ?_⟩
      simpa [after, cut_flatten] using h
    | succ k => simpa [answer_succ, after] using hnext k

/-- Repeated reads of a console take an input piece by piece. -/
structure ReadsPieces (c : Console σ) (bytes : Bytes) : Prop where
  /-- No byte is lost, repeated or moved. -/
  flatten : (cut bytes).flatten = bytes
  first : ∀ k p, (cut bytes)[k]? = some p → IsFirst p ((cut bytes).drop k).flatten
  content : ∀ k p, (cut bytes)[k]? = some p → answer readLine k c = .ok (content p)
  ended : ∀ k, (cut bytes).length ≤ k → answer readLine k c = .error .endOfStream
  /-- What is behind the pieces that were read, and nothing else, is still to be had. -/
  unread : ∀ k left, Serves (after readLine k c).channel left ↔
    left = ((cut bytes).drop k).flatten
  /-- The pieces, and with them the calls, that a line takes. -/
  terminated : ∀ before l rest, IsLines before → LineBuffer.newline ∉ l →
    bytes = before ++ l ++ LineBuffer.newline :: rest →
    ∃ ps, cut bytes = cut before ++ ps ++ cut rest ∧
      ps.flatten = l ++ [LineBuffer.newline] ∧ ps.length = l.length / limit + 1
  /-- The same for a last line without a newline. -/
  unterminated : ∀ before l, IsLines before → LineBuffer.newline ∉ l → bytes = before ++ l →
    ∃ ps, cut bytes = cut before ++ ps ∧ ps.flatten = l ∧
      ps.length = (l.length + (limit - 1)) / limit

/-- Whatever the channel is, a console reads a served input in pieces. -/
theorem readsPieces_of_serves (c : Console σ) (bytes : Bytes) (h : Serves c.channel bytes) :
    ReadsPieces c bytes where
  flatten := cut_flatten bytes
  first := isFirst_cut bytes
  content k p hp := by
    rw [(answer_readLine h k).1, hp]
    rfl
  ended k hk := by
    rw [(answer_readLine h k).1, List.getElem?_eq_none hk]
    rfl
  unread k left := by
    have hserves := (answer_readLine h k).2
    constructor
    · intro hleft
      exact serves_unique hleft hserves
    · rintro rfl
      exact hserves
  terminated before l rest hbefore hl hbytes := by
    obtain ⟨ps, hcut, hflatten, hlength⟩ := cut_line l rest hl
    refine ⟨ps, ?_, hflatten, hlength⟩
    rw [hbytes, List.append_assoc, cut_append before _ hbefore, hcut, List.append_assoc]
  unterminated before l hbefore hl hbytes := by
    refine ⟨cut l, ?_, cut_flatten l, cut_length l hl⟩
    rw [hbytes, cut_append before _ hbefore]

/-- A console with all its input in memory. -/
def ofMemory (bytes : Bytes) : Console Memory := { channel := ⟨⟨bytes⟩, ⟨[]⟩⟩ }

theorem serves_ofMemory (bytes : Bytes) : Serves (ofMemory bytes).channel bytes :=
  serves_unread bytes _

/-- A line that fills a piece leaves its newline to the next call, which gives an empty line. -/
theorem reads_full_line :
    let line := List.replicate limit (0x61 : UInt8) ++ [LineBuffer.newline]
    Serves (ofMemory line).channel line ∧
      answer readLine 0 (ofMemory line) = .ok (List.replicate limit 0x61) ∧
      answer readLine 1 (ofMemory line) = .ok [] ∧
      answer readLine 2 (ofMemory line) = .error .endOfStream := by
  intro line
  have hserves := serves_ofMemory line
  have hcut : cut line = [List.replicate limit 0x61, [LineBuffer.newline]] := by
    decide +kernel
  have hreads := readsPieces_of_serves (ofMemory line) line hserves
  refine ⟨hserves, ?_, ?_, ?_⟩
  · exact hreads.content 0 _ (by rw [hcut]; rfl)
  · exact hreads.content 1 _ (by rw [hcut]; rfl)
  · exact hreads.ended 2 (by rw [hcut]; exact Nat.le_refl 2)

/-- Lines that a channel delivers are read in pieces too, whatever comes behind them. -/
theorem answer_readLine_of_delivers {c : Console σ} {t : σ} {bytes : Bytes}
    (h : Delivers c.channel bytes t) (hlines : IsLines bytes) :
    (after readLine (cut bytes).length c).channel = t ∧
      ∀ k p, (cut bytes)[k]? = some p → answer readLine k c = .ok (content p) := by
  induction bytes using cut_induction generalizing c with
  | nil =>
    obtain rfl := h
    exact ⟨rfl, by simp⟩
  | unfinished l hl hne => exact absurd (hlines.eq_nil hl) hne
  | finished q byte rest hq hb ih =>
    rw [List.append_cons] at h
    obtain ⟨u, hpiece, hrest⟩ := delivers_append.mp h
    have hcall := readLine_finished hpiece hq hb
    obtain ⟨hend, hanswers⟩ := ih (c := (readLine c).2) (by rw [hcall]; exact hrest)
      hlines.of_append
    rw [cut_finished rest hq hb]
    refine ⟨hend, ?_⟩
    intro k p hp
    cases k with
    | zero =>
      obtain rfl : q ++ [byte] = p := by simpa using hp
      rw [answer_zero, hcall]
    | succ k => exact hanswers k p hp

/-- The calls that take exactly one line give, put together, the line without the carriage
returns that fill a piece; so they give the whole line if and only if it has no such byte. -/
theorem readLine_line (c : Console σ) (s : σ) (w t : Bytes) (hw : LineBuffer.newline ∉ w)
    (ht : IsTerminator t) (hreturn : w.getLast? ≠ some carriageReturn)
    (h : Delivers c.channel (w ++ t) s) :
    ∃ contents : List Bytes, contents.length = (w.length + t.length - 1) / limit + 1 ∧
      (∀ k p, contents[k]? = some p → answer readLine k c = .ok p) ∧
      (after readLine contents.length c).channel = s ∧
      contents.flatten = kept w ∧
      (contents.flatten = w ↔
        ∀ j, j % limit = limit - 1 → w[j]? ≠ some carriageReturn) := by
  have hlines : IsLines (w ++ t) := by
    rcases ht with rfl | rfl <;> exact Or.inr (by simp)
  obtain ⟨hend, hanswers⟩ := answer_readLine_of_delivers h hlines
  have hflatten := content_line w t hw ht hreturn
  refine ⟨(cut (w ++ t)).map content, ?_, ?_, ?_, hflatten, ?_⟩
  · rw [List.length_map, cut_line_length w t hw ht]
  · intro k p hp
    rw [List.getElem?_map] at hp
    obtain ⟨q, hq, rfl⟩ := Option.map_eq_some_iff.mp hp
    exact hanswers k q hq
  · rwa [List.length_map]
  · rw [hflatten]
    exact kept_eq_self_iff w

theorem readLine_line_in_memory :
    let w := List.replicate 300 (0x61 : UInt8)
    let t := [carriageReturn, LineBuffer.newline]
    LineBuffer.newline ∉ w ∧ IsTerminator t ∧ w.getLast? ≠ some carriageReturn ∧
      ∃ contents : List Bytes, contents.length = 2 ∧
        (∀ k p, contents[k]? = some p → answer readLine k (ofMemory (w ++ t)) = .ok p) ∧
        contents.flatten = w := by
  intro w t
  have hw : LineBuffer.newline ∉ w := by decide +kernel
  have hlast : w.getLast? ≠ some carriageReturn := by decide +kernel
  have hreturn : ∀ j, j % limit = limit - 1 → w[j]? ≠ some carriageReturn := by
    intro j _ hj
    have hmem := List.eq_of_mem_replicate (List.mem_of_getElem? hj)
    exact absurd hmem (by decide)
  have htwo : (w.length + t.length - 1) / limit + 1 = 2 := by decide +kernel
  have hdelivers : Delivers (ofMemory (w ++ t)).channel (w ++ t) ⟨⟨[]⟩, ⟨[]⟩⟩ := by
    simpa [ofMemory] using delivers_unread (w ++ t) [] (⟨[]⟩ : Written)
  obtain ⟨contents, hlength, hanswers, -, -, hiff⟩ :=
    readLine_line (ofMemory (w ++ t)) _ w t hw (Or.inr rfl) hlast hdelivers
  exact ⟨hw, Or.inr rfl, hlast, contents, hlength.trans htwo, hanswers, hiff.mpr hreturn⟩

/-- A carriage return that fills a piece is lost, although the line goes on behind it. -/
theorem readLine_loses_return :
    let w := List.replicate 254 (0x61 : UInt8) ++ [carriageReturn, 0x62]
    let c := ofMemory (w ++ [LineBuffer.newline])
    answer readLine 0 c = .ok (List.replicate 254 0x61) ∧ answer readLine 1 c = .ok [0x62] ∧
      (after readLine 2 c).channel.source.bytes = [] := by
  decide +kernel

end LineConsole.Console
