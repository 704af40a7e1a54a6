/-
`start_simple_file_down_server` (simple_file_down_server.hpp), from `accept`
on: one client, one `sendfile`, and the descriptors closed.

`sendfile` reads at the file's own offset, which is 0 after `open`. How many
bytes it moves is the kernel's answer (`Transfer`): at most what was asked
for, at most `sendfileMax` in one call, and possibly fewer.
-/
import Mathlib.Data.List.TakeDrop

namespace LinuxServer.FileDown

/-- The most bytes Linux moves in one `sendfile`. -/
def sendfileMax : Nat := 0x7ffff000

/-- The bytes moved by a `sendfile` of all of `file` on a connection that does not fail. -/
structure Transfer (file : List UInt8) where
  count : Nat
  le_size : count ≤ file.length
  le_max : count ≤ sendfileMax

/-- A call the server makes, with what it did. -/
inductive Call
  | accept (fd : Int)
  | openFile (fd : Int)
  | fstat (fd : Int) (size : Nat)
  | sendfile (outFd inFd : Int) (bytes : List UInt8)
  | close (fd : Int)
  deriving DecidableEq, Repr

/-- How the function ends: with a value, at a failed `assert`, or at its end,
which has no `return`. -/
inductive Ending
  | returned (ret : Int)
  | aborted
  | atEnd
  deriving DecidableEq, Repr

/-- The function from `accept` on, where `accept` returns `cliFd` and `open` returns `fileFd`. -/
def serve (srvFd cliFd fileFd : Int) (file : List UInt8) (t : Transfer file) : List Call × Ending :=
  if cliFd < 0 then ([.accept cliFd], .returned 1)
  else if 0 < fileFd then
    ([.accept cliFd, .openFile fileFd, .fstat fileFd file.length, .sendfile cliFd fileFd (file.take t.count),
      .close fileFd, .close cliFd, .close srvFd], .atEnd)
  else ([.accept cliFd, .openFile fileFd], .aborted)

/-- What the call sends to `fd`. -/
def Call.sentTo (fd : Int) : Call → List UInt8
  | .sendfile outFd _ bytes => if outFd = fd then bytes else []
  | .accept _ | .openFile _ | .fstat _ _ | .close _ => []

/-- What was sent to `fd` before it was closed. -/
def delivered (fd : Int) (calls : List Call) : List UInt8 :=
  (calls.takeWhile (· ≠ .close fd)).flatMap (Call.sentTo fd)

variable {srvFd cliFd fileFd : Int} {file : List UInt8}

/-- The client gets what the one `sendfile` moved. -/
theorem delivered_serve (hcli : 0 ≤ cliFd) (hfile : 0 < fileFd) (hne : fileFd ≠ cliFd) (t : Transfer file) :
    delivered cliFd (serve srvFd cliFd fileFd file t).1 = file.take t.count := by
  have hneg : ¬ cliFd < 0 := by omega
  simp [serve, hneg, hfile, hne, delivered, Call.sentTo]

/-- **When the download is whole.** On a connection that does not fail, the
client is sent the whole file before `close` exactly when the one `sendfile`
moves all of it; for a file larger than one `sendfile` can move it never is. -/
theorem download_whole_iff (hcli : 0 ≤ cliFd) (hfile : 0 < fileFd) (hne : fileFd ≠ cliFd) (t : Transfer file) :
    (delivered cliFd (serve srvFd cliFd fileFd file t).1 = file ↔ t.count = file.length) ∧
    (sendfileMax < file.length → delivered cliFd (serve srvFd cliFd fileFd file t).1 ≠ file) := by
  have hwhole : delivered cliFd (serve srvFd cliFd fileFd file t).1 = file ↔ t.count = file.length := by
    rw [delivered_serve hcli hfile hne, List.take_eq_self_iff]
    have := t.le_size
    omega
  refine ⟨hwhole, fun hlarge hall => ?_⟩
  have hcount := hwhole.mp hall
  have hmax := t.le_max
  omega

/-- `download_whole_iff` for three bytes moved at once. -/
theorem download_whole_iff_three :
    (delivered 4 (serve 3 4 5 [1, 2, 3] ⟨3, by decide, by decide⟩).1 = [1, 2, 3] ↔ 3 = [1, 2, 3].length) ∧
    (sendfileMax < [1, 2, 3].length →
      delivered 4 (serve 3 4 5 [1, 2, 3] ⟨3, by decide, by decide⟩).1 ≠ [1, 2, 3]) :=
  download_whole_iff (by decide) (by decide) (by decide) ⟨3, by decide, by decide⟩

/-- `sendfile` stops after two of three bytes, and the client is closed. -/
theorem short_transfer_truncates :
    delivered 4 (serve 3 4 5 [1, 2, 3] ⟨2, by decide, by decide⟩).1 = [1, 2] ∧
    Call.close 4 ∈ (serve 3 4 5 [1, 2, 3] ⟨2, by decide, by decide⟩).1 := by
  decide

end LinuxServer.FileDown
