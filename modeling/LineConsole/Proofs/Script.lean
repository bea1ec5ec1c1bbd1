import LineConsole.Channel.Script

/-!
What one read of scripted input takes. Interruptions and empty chunks are not seen: a read gives
the next byte, the end of the input or a failure, and takes no other byte away.
-/
namespace LineConsole.Script

structure Sound (s : Script) : Prop where
  ending : s.ending = .endOfStream
  chunks : ∀ reason, .failure reason ∉ s.chunks

theorem sound_iff (s : Script) :
    s.Sound ↔ s.ending = .endOfStream ∧ s.chunks.all fun
      | .failure _ => false
      | _ => true := by
  constructor
  · intro h
    refine ⟨h.ending, List.all_eq_true.mpr fun chunk hchunk => ?_⟩
    cases chunk with
    | failure reason => exact absurd hchunk (h.chunks reason)
    | _ => rfl
  · rintro ⟨hending, hchunks⟩
    refine ⟨hending, fun reason hmem => ?_⟩
    exact Bool.noConfusion (List.all_eq_true.mp hchunks _ hmem)

instance (s : Script) : Decidable s.Sound := decidable_of_iff _ s.sound_iff.symm

theorem sound_nil : Sound ⟨[], .endOfStream⟩ := ⟨rfl, fun _ => List.not_mem_nil⟩

inductive Reads (s : Script) : Except String (Option UInt8) → Script → Prop
  | byte (b : UInt8) (t : Script) (readable : s.readable = b :: t.readable)
      (remaining : s.remaining = b :: t.remaining) (sound : s.Sound ↔ t.Sound) :
      Reads s (.ok (some b)) t
  | ended (readable : s.readable = []) (remaining : s.remaining = []) (sound : s.Sound) :
      Reads s (.ok none) ⟨[], .endOfStream⟩
  | failed (reason : String) (t : Script) (readable : s.readable = [])
      (unsound : ¬ s.Sound) : Reads s (.error reason) t

/-- A chunk without bytes is passed over. -/
theorem Reads.skip {s t u : Script} {r : Except String (Option UInt8)} (h : Reads s r u)
    (readable : t.readable = s.readable) (remaining : t.remaining = s.remaining)
    (sound : t.Sound ↔ s.Sound) : Reads t r u := by
  cases h with
  | byte b u hreadable hremaining hsound =>
    exact .byte b u (readable.trans hreadable) (remaining.trans hremaining) (sound.trans hsound)
  | ended hreadable hremaining hsound =>
    exact .ended (readable.trans hreadable) (remaining.trans hremaining) (sound.mpr hsound)
  | failed reason u hreadable hunsound =>
    exact .failed reason u (readable.trans hreadable) (hunsound ∘ sound.mp)

theorem sound_cons {chunk : Chunk} (rest : List Chunk) (ending : Ending)
    (h : ∀ reason, chunk ≠ .failure reason) :
    Sound ⟨chunk :: rest, ending⟩ ↔ Sound ⟨rest, ending⟩ := by
  constructor
  · intro hsound
    exact ⟨hsound.ending, fun reason hmem => hsound.chunks reason (List.mem_cons_of_mem _ hmem)⟩
  · intro hsound
    refine ⟨hsound.ending, fun reason hmem => ?_⟩
    rcases List.mem_cons.mp hmem with heq | hmem
    · exact h reason heq.symm
    · exact hsound.chunks reason hmem

theorem readFrom_reads (ending : Ending) (chunks : List Chunk) :
    Reads ⟨chunks, ending⟩ (readFrom ending chunks).1 ⟨(readFrom ending chunks).2, ending⟩ := by
  induction chunks with
  | nil =>
    cases ending with
    | endOfStream => exact .ended rfl rfl sound_nil
    | failure reason => exact .failed reason _ rfl fun h => by cases h.ending
  | cons chunk rest ih =>
    cases chunk with
    | data bytes =>
      have hsound (bytes : Bytes) : Sound ⟨.data bytes :: rest, ending⟩ ↔ Sound ⟨rest, ending⟩ :=
        sound_cons rest ending (by simp)
      cases bytes with
      | nil => exact ih.skip rfl rfl (hsound [])
      | cons b bytes => exact .byte b _ rfl rfl ((hsound (b :: bytes)).trans (hsound bytes).symm)
    | interrupted => exact ih.skip rfl rfl (sound_cons rest ending (by simp))
    | failure reason =>
      exact .failed reason _ rfl fun h => h.chunks reason List.mem_cons_self

theorem read_reads (s : Script) : Reads s s.read.1 s.read.2 := readFrom_reads s.ending s.chunks

end LineConsole.Script
