import LineConsole.Proofs.Histories
import LineConsole.Proofs.Host

/-!
How scripted input is delivered. What is to be read are bytes and, between them, failures; where
chunks begin and end, and where a read is interrupted, is not. A read looks at the input until it
is not interrupted, and then it takes the first of these items, so nobody behind it can tell two
deliveries of the same items apart.
-/
namespace LineConsole

namespace Script

inductive Item
  | byte (b : UInt8)
  | failure (reason : String)
  deriving DecidableEq

def Item.result : Item → Except String (Option UInt8)
  | .byte b => .ok (some b)
  | .failure reason => .error reason

def Item.byte? : Item → Option UInt8
  | .byte b => some b
  | .failure _ => none

def Chunk.items : Chunk → List Item
  | .data bytes => bytes.map .byte
  | .interrupted => []
  | .failure reason => [.failure reason]

def Ending.result : Ending → Except String (Option UInt8)
  | .endOfStream => .ok none
  | .failure reason => .error reason

def items (s : Script) : List Item := s.chunks.flatMap Chunk.items

/-- Interruptions are dropped, and chunks of data that are side by side then are put together. -/
def mergeChunks : List Chunk → List Chunk
  | [] => []
  | .interrupted :: rest => mergeChunks rest
  | .failure reason :: rest => .failure reason :: mergeChunks rest
  | .data bytes :: rest =>
      match mergeChunks rest with
      | .data more :: rest => .data (bytes ++ more) :: rest
      | rest => .data bytes :: rest

def merged (s : Script) : Script := { s with chunks := mergeChunks s.chunks }

theorem items_mergeChunks (chunks : List Chunk) :
    (mergeChunks chunks).flatMap Chunk.items = chunks.flatMap Chunk.items := by
  induction chunks with
  | nil => rfl
  | cons chunk rest ih =>
    cases chunk with
    | interrupted => exact ih
    | failure reason => rw [mergeChunks, List.flatMap_cons, List.flatMap_cons, ih]
    | data bytes =>
      rw [List.flatMap_cons, ← ih, mergeChunks]
      split
      · next more rest' h => simp [h, Chunk.items]
      · rfl

/-- Merging changes nothing of what is to be read. -/
theorem items_eq_of_merged {s t : Script} (h : s.merged = t.merged) : s.items = t.items := by
  have hchunks : mergeChunks s.chunks = mergeChunks t.chunks := congrArg Script.chunks h
  rw [items, items, ← items_mergeChunks, hchunks, items_mergeChunks]

theorem remaining_eq_items (s : Script) : s.remaining = s.items.filterMap Item.byte? := by
  rw [remaining, items, List.filterMap_flatMap]
  congr 1
  funext chunk
  cases chunk with
  | data bytes => simp [Chunk.bytes, Chunk.items, Item.byte?, Function.comp_def]
  | interrupted => rfl
  | failure reason => rfl

theorem readFrom_items (ending : Ending) (chunks : List Chunk) :
    (readFrom ending chunks).1 =
        (((chunks.flatMap Chunk.items).head?).map Item.result).getD (Ending.result ending) ∧
      (readFrom ending chunks).2.flatMap Chunk.items = (chunks.flatMap Chunk.items).tail := by
  induction chunks with
  | nil => cases ending <;> exact ⟨rfl, rfl⟩
  | cons chunk rest ih =>
    cases chunk with
    | interrupted => exact ih
    | failure reason => exact ⟨rfl, rfl⟩
    | data bytes =>
      cases bytes with
      | nil => exact ih
      | cons b bytes => exact ⟨rfl, rfl⟩

theorem read_items (s : Script) :
    s.read.1 = ((s.items.head?).map Item.result).getD (Ending.result s.ending) ∧
      s.read.2.items = s.items.tail :=
  readFrom_items s.ending s.chunks

/-- A read takes a byte if it gives one, and otherwise none. -/
theorem read_remaining (s : Script) :
    s.remaining = (s.read.1.toOption.join).toList ++ s.read.2.remaining := by
  obtain ⟨hresult, hleft⟩ := s.read_items
  rw [remaining_eq_items, remaining_eq_items, hresult, hleft]
  rcases s.items with _ | ⟨b | reason, rest⟩
  · cases s.ending <;> rfl
  · rfl
  · rfl

/-! The loop behind a read -/

/-- What a look at the input shows: the bytes at hand, of which there are none only at the end of
the input, or that the look was interrupted or failed. -/
inductive Look
  | bytes (bytes : Bytes)
  | interrupted
  | failure (reason : String)

/-- A look takes no bytes. An interruption and a failure are over when they have been seen. -/
def lookFrom (ending : Ending) : List Chunk → Look × List Chunk
  | [] =>
      match ending with
      | .endOfStream => (.bytes [], [])
      | .failure reason => (.failure reason, [])
  | .data [] :: rest => lookFrom ending rest
  | .data bytes :: rest => (.bytes bytes, .data bytes :: rest)
  | .interrupted :: rest => (.interrupted, rest)
  | .failure reason :: rest => (.failure reason, rest)

def consume : List Chunk → List Chunk
  | .data bytes :: rest => .data (bytes.drop 1) :: rest
  | chunks => chunks

/-- What a look decides, and what is left of the input then. An interruption decides nothing. -/
def Look.decided (left : List Chunk) : Look → Option (Except String (Option UInt8) × List Chunk)
  | .bytes [] => some (.ok none, left)
  | .bytes (b :: _) => some (.ok (some b), consume left)
  | .interrupted => none
  | .failure reason => some (.error reason, left)

/-- Looks at the input until a look decides, behind so many that do not. -/
inductive Loop (ending : Ending) :
    List Chunk → Nat → Except String (Option UInt8) × List Chunk → Prop
  | decided {chunks left : List Chunk} {look : Look} {r : Except String (Option UInt8) × List Chunk}
      (looked : lookFrom ending chunks = (look, left)) (decided : look.decided left = some r) :
      Loop ending chunks 0 r
  | again {chunks left : List Chunk} {look : Look} {tries : Nat}
      {r : Except String (Option UInt8) × List Chunk}
      (looked : lookFrom ending chunks = (look, left)) (undecided : look.decided left = none)
      (rest : Loop ending left tries r) : Loop ending chunks (tries + 1) r

/-- The first look decides how the loop goes on. -/
theorem Loop.of_look {ending : Ending} {chunks other : List Chunk} {tries : Nat}
    {r : Except String (Option UInt8) × List Chunk} (h : Loop ending chunks tries r)
    (hlook : lookFrom ending other = lookFrom ending chunks) : Loop ending other tries r := by
  cases h with
  | decided looked decided => exact .decided (hlook.trans looked) decided
  | again looked undecided rest => exact .again (hlook.trans looked) undecided rest

theorem Loop.unique {ending : Ending} {chunks : List Chunk} {tries tries' : Nat}
    {r r' : Except String (Option UInt8) × List Chunk} (h : Loop ending chunks tries r)
    (h' : Loop ending chunks tries' r') : r = r' := by
  induction h generalizing tries' with
  | decided looked decided =>
    cases h' with
    | decided looked' decided' =>
      cases looked.symm.trans looked'
      exact Option.some.inj (decided.symm.trans decided')
    | again looked' undecided' rest' =>
      cases looked.symm.trans looked'
      cases decided.symm.trans undecided'
  | again looked undecided rest ih =>
    cases h' with
    | decided looked' decided' =>
      cases looked.symm.trans looked'
      cases undecided.symm.trans decided'
    | again looked' undecided' rest' =>
      cases looked.symm.trans looked'
      exact ih rest'

/-- The loop comes to an end, and it does what a read does. -/
theorem loop_readFrom (ending : Ending) (chunks : List Chunk) :
    ∃ tries ≤ chunks.countP (· = .interrupted), Loop ending chunks tries (readFrom ending chunks) := by
  induction chunks with
  | nil =>
    cases ending with
    | endOfStream => exact ⟨0, Nat.le_refl 0, .decided rfl rfl⟩
    | failure reason => exact ⟨0, Nat.le_refl 0, .decided rfl rfl⟩
  | cons chunk rest ih =>
    obtain ⟨tries, htries, hrest⟩ := ih
    cases chunk with
    | interrupted => exact ⟨tries + 1, by simpa using htries, .again rfl rfl hrest⟩
    | failure reason => exact ⟨0, Nat.zero_le _, .decided rfl rfl⟩
    | data bytes =>
      cases bytes with
      -- A look does not stop at an empty chunk, so this is no further try.
      | nil => exact ⟨tries, by simpa using htries, hrest.of_look rfl⟩
      | cons b bytes => exact ⟨0, Nat.zero_le _, .decided rfl rfl⟩

end Script

namespace Host.Streams

open Channel Fallible Script

variable {ω : Type} [Sink ω]

/-- The items to come and all that lies behind the input are the same. -/
structure SameItems (s t : Streams ω) : Prop where
  items : s.input.items = t.input.items
  ending : s.input.ending = t.input.ending
  output : s.output = t.output
  log : s.log = t.log

theorem alike_sameItems : Channel.Alike (SameItems (ω := ω)) where
  readByte := by
    rintro ⟨input, output, log⟩ ⟨input', _, _⟩ ⟨hitems, hending, rfl, rfl⟩
    have hfirst : input.read.1 = input'.read.1 := by
      rw [input.read_items.1, input'.read_items.1, hitems, hending]
    have hleft : input.read.2.items = input'.read.2.items := by
      rw [input.read_items.2, input'.read_items.2, hitems]
    have hstays : input.read.2.ending = input'.read.2.ending := hending
    simp only [readByte_apply]
    generalize input.read = p at hfirst hleft hstays
    generalize input'.read = q at hfirst hleft hstays
    obtain ⟨r, next⟩ := p
    obtain ⟨_, next'⟩ := q
    obtain rfl := hfirst
    cases r with
    | error reason => exact ⟨_, _, _, rfl, rfl, hleft, hstays, rfl, rfl⟩
    | ok byte => exact ⟨_, _, _, rfl, rfl, hleft, hstays, rfl, rfl⟩
  writeAll bytes := by
    rintro ⟨input, output, log⟩ ⟨input', _, _⟩ ⟨hitems, hending, rfl, rfl⟩
    exact ⟨_, _, _, rfl, rfl, hitems, hending, rfl, rfl⟩
  flush := by
    rintro ⟨input, output, log⟩ ⟨input', _, _⟩ ⟨hitems, hending, rfl, rfl⟩
    exact ⟨_, _, _, rfl, rfl, hitems, hending, rfl, rfl⟩

theorem readByte_read {s t : Streams ω} {r : Except Fault (Option UInt8)}
    (h : readByte s = (r, t)) :
    r = s.input.read.1.mapError (fun _ => .readFailed) ∧ t.input = s.input.read.2 := by
  rw [readByte_apply] at h
  generalize s.input.read = p at h
  rcases p with ⟨_ | _, _⟩ <;> cases h <;> exact ⟨rfl, rfl⟩

theorem readByte_remaining {s t : Streams ω} {r : Except Fault (Option UInt8)}
    (h : readByte s = (r, t)) :
    s.input.remaining = r.toOption.join.toList ++ t.input.remaining := by
  obtain ⟨rfl, hinput⟩ := readByte_read h
  rw [s.input.read_remaining, hinput]
  cases s.input.read.1 <;> rfl

/-- The item that is left behind `k` reads is what the next one gives. -/
theorem answer_readByte (k : Nat) (s : Streams ω) :
    answer readByte k s = (((s.input.items[k]?).map Item.result).getD
        (Ending.result s.input.ending)).mapError (fun _ => .readFailed) ∧
      (after readByte k s).input.items = s.input.items.drop k := by
  induction k generalizing s with
  | zero =>
    cases hread : readByte s with
    | mk r t =>
      obtain ⟨rfl, -⟩ := readByte_read hread
      rw [answer_zero, hread, s.input.read_items.1, List.head?_eq_getElem?]
      exact ⟨rfl, rfl⟩
  | succ k ih =>
    cases hread : readByte s with
    | mk r t =>
      obtain ⟨-, hinput⟩ := readByte_read hread
      obtain ⟨hanswer, hitems⟩ := ih t
      have hending : s.input.read.2.ending = s.input.ending := rfl
      rw [hinput, s.input.read_items.2] at hanswer hitems
      rw [hending, List.getElem?_tail] at hanswer
      rw [List.drop_tail] at hitems
      rw [answer_succ, after, hread]
      exact ⟨hanswer, hitems⟩

/-- How a script is read, byte by byte. -/
structure ReadsItems (s : Streams ω) : Prop where
  /-- The loop behind a read ends after no more interruptions than there are in the script. -/
  terminates : ∃ tries ≤ s.input.chunks.countP (· = .interrupted),
    Loop s.input.ending s.input.chunks tries (s.input.read.1, s.input.read.2.chunks)
  decided : ∀ tries r, Loop s.input.ending s.input.chunks tries r →
    r = (s.input.read.1, s.input.read.2.chunks)
  byte : ∀ b t, readByte s = (.ok (some b), t) → s.input.remaining = b :: t.input.remaining
  ended : ∀ t, readByte s = (.ok none, t) →
    s.input.items = [] ∧ t.input.remaining = s.input.remaining
  failed : ∀ e t, readByte s = (.error e, t) →
    e = .readFailed ∧ t.input.remaining = s.input.remaining
  /-- Each failure is reported by one read, in its place between the bytes. -/
  answers : ∀ k, answer readByte k s = (((s.input.items[k]?).map Item.result).getD
    (Ending.result s.input.ending)).mapError (fun _ => .readFailed)

theorem readsItems (s : Streams ω) : ReadsItems s where
  terminates := loop_readFrom s.input.ending s.input.chunks
  decided tries r h := by
    obtain ⟨_, -, hloop⟩ := loop_readFrom s.input.ending s.input.chunks
    exact h.unique hloop
  byte b t h := readByte_remaining h
  ended t h := by
    refine ⟨?_, (readByte_remaining h).symm⟩
    have hresult := (answer_readByte 0 s).1
    rw [answer_zero, h] at hresult
    rcases hitems : s.input.items with _ | ⟨b | reason, rest⟩
    · rfl
    · rw [hitems] at hresult
      cases hresult
    · rw [hitems] at hresult
      cases hresult
  failed e t h := by
    refine ⟨?_, (readByte_remaining h).symm⟩
    have hresult := (readByte_read h).1
    generalize s.input.read.1 = read at hresult
    cases read with
    | error reason => exact Except.error.inj hresult
    | ok byte => cases hresult
  answers k := (answer_readByte k s).1

end Host.Streams

namespace Console

open Host

variable {ω : Type} [Sink ω]

/-- The console with this input in the place of its own. -/
def reading (c : Console (Streams ω)) (s : Script) : Console (Streams ω) :=
  { c with channel := { c.channel with input := s } }

/-- How input is delivered is not seen. Two scripts that become equal when interruptions are
dropped and data is put together show the same to every history: results, lines, output, log and
what is left to be read. Byte by byte, either gives its items in their order, each of them once. -/
theorem delivery_is_invisible (s t : Script) (h : s.merged = t.merged) (c : Console (Streams ω))
    (ops : List Op) :
    (replay (c.reading s) (ops.map .op)).map
        (Entry.seen fun x => (x.output, x.log, x.input.items)) =
      (replay (c.reading t) (ops.map .op)).map
        (Entry.seen fun x => (x.output, x.log, x.input.items)) ∧
      s.items = t.items ∧ ∀ x : Streams ω, x.ReadsItems := by
  have hitems := Script.items_eq_of_merged h
  have hending : s.merged.ending = t.merged.ending := congrArg Script.ending h
  have hsame : Streams.SameItems (c.reading s).channel (c.reading t).channel :=
    ⟨hitems, hending, rfl, rfl⟩
  refine ⟨?_, hitems, Streams.readsItems⟩
  apply replay_seen Streams.alike_sameItems _ ⟨hsame, rfl⟩ ops
  intro x y hxy
  rw [hxy.items, hxy.output, hxy.log]

/-- A failure between two lines, with and without interruptions on the way. -/
theorem delivery_is_invisible_around_failure :
    let s : Script := ⟨[.interrupted, .data [0x61], .data [0x62, 0x0A], .interrupted,
      .failure "broken", .data [0x63]], .endOfStream⟩
    let t : Script := ⟨[.data [0x61, 0x62, 0x0A], .failure "broken", .data [0x63],
      .interrupted], .endOfStream⟩
    let c : Console (Streams Bounded) := { channel := { input := ⟨[], .endOfStream⟩, output := {} } }
    let ops : List Op := [.readLine, .print (.int 7), .readLine, .readByte, .readLine]
    s.merged = t.merged ∧
      (replay (c.reading s) (ops.map .op)).map
          (Entry.seen fun x => (x.output, x.log, x.input.items)) =
        (replay (c.reading t) (ops.map .op)).map
          (Entry.seen fun x => (x.output, x.log, x.input.items)) ∧
      (replay (c.reading s) (ops.map .op)).map (·.after.channel.input.remaining) =
        [[0x63], [0x63], [0x63], [], []] := by
  intro s t c ops
  have hmerged : s.merged = t.merged := by decide
  exact ⟨hmerged, (delivery_is_invisible s t hmerged c ops).1, by decide +kernel⟩

end Console

end LineConsole
