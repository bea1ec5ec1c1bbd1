import LineConsole.Proofs.Device
import LineConsole.Proofs.Freshness

/-!
Lines that a device reads from its serial line. A read takes the first piece of the bytes that
were received and leaves the others, or it finds the end of the input if there are none.
-/
namespace LineConsole.Device.Uart

open LineBuffer Channel Pieces Console

theorem Supplies.of_queue {u : Uart} (h : u.Supplies) (queue : Bytes) :
    Supplies { u with receiver.queue := queue } := ⟨h.running, h.received, h.ended⟩

theorem Supplies.delivers {u : Uart} (h : u.Supplies) {front back : Bytes}
    (hqueue : u.receiver.queue = front ++ back) :
    Delivers u front { u with receiver.queue := back } := by
  induction front generalizing u with
  | nil =>
    obtain rfl : u.receiver.queue = back := hqueue
    rfl
  | cons b rest ih =>
    have hrest := ih (h.of_queue (rest ++ back)) rfl
    exact delivers_cons (h.readByte_byte hqueue) hrest

theorem Supplies.readLine_nil {u : Uart} (h : u.Supplies) (hcut : cut u.receiver.queue = [])
    (old : LineBuffer) : readLine ⟨u, old⟩ = (.error .endOfStream, ⟨u, .empty⟩) := by
  have hqueue : u.receiver.queue = [] := by rw [← cut_flatten u.receiver.queue, hcut]; rfl
  exact readLine_ended (h.readByte_end hqueue)

theorem Supplies.readLine_cons {u : Uart} (h : u.Supplies) {p : Bytes} {ps : List Bytes}
    (hcut : cut u.receiver.queue = p :: ps) (old : LineBuffer) :
    readLine ⟨u, old⟩ =
      (.ok (content p), ⟨{ u with receiver.queue := ps.flatten }, ofBytes (content p)⟩) := by
  rcases unfinished_or_finished u.receiver.queue with hl | ⟨q, byte, rest, hqueue, hq, hb⟩
  · have hne : u.receiver.queue ≠ [] := by
      intro hnil
      rw [hnil, cut_nil] at hcut
      cases hcut
    rw [cut_unfinished hl hne] at hcut
    obtain ⟨rfl, rfl⟩ := List.cons.inj hcut
    have hdelivers : Delivers u u.receiver.queue { u with receiver.queue := [] } :=
      h.delivers (List.append_nil _).symm
    exact readLine_unfinished hdelivers hl hne ((h.of_queue []).readByte_end rfl)
  · rw [hqueue, cut_finished rest hq hb] at hcut
    obtain ⟨rfl, rfl⟩ := List.cons.inj hcut
    rw [cut_flatten]
    rw [List.append_cons] at hqueue
    exact readLine_finished (c := ⟨u, old⟩) (h.delivers hqueue) hq hb

end LineConsole.Device.Uart
