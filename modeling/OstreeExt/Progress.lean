import OstreeExt.Prelude

/-!
# The progress of a layer's bytes

`fetch_layer` wraps the reader of a blob: after each successful poll the wrapper adds what
the poll has put into the buffer to the value of a `watch` channel, and a task beside it
publishes every new value as a `LayerProgress`.  The wrapped reader is any `AsyncRead`, and a
run is any interleaving of polls, with any buffers, and of rounds of that task.

The channel starts at one, not at zero: the value is always one more than the bytes
delivered (`value_run`), and a layer that is read completely is reported with a byte too many.
-/

namespace OstreeExt

-- ── Readers ──

/-- `ReadBuf`, by what has been filled in. -/
structure ReadBuf where
  filled : Bytes

/-- `Poll<io::Result<()>>`. -/
inductive Poll where
  | pending
  | ready (result : Result Unit)

/-- A reader.  What a poll may do is up to it, but a successful one only appends to the
    buffer: the `debug_assert!` of `poll_read` relies on that. -/
class AsyncRead (T : Type) where
  pollRead : T → ReadBuf → Poll × ReadBuf × T
  appends : ∀ reader buf, (pollRead reader buf).1 = .ready (.ok ()) →
    buf.filled <+: (pollRead reader buf).2.1.filled

/-- What a poll delivers, if it succeeds. -/
def delivers {T : Type} [AsyncRead T] (reader : T) (buf : ReadBuf) : Option Bytes :=
  match AsyncRead.pollRead reader buf with
  | (.ready (.ok ()), filledBuf, _) => some (filledBuf.filled.drop buf.filled.length)
  | _ => none

/-- One poll of a reader whose results are written down beforehand. -/
inductive Scripted where
  | pending
  | error (msg : String)
  | data (bytes : Bytes)

/-- So every sequence of results is that of a reader; behind its end nothing more comes. -/
def Scripted.pollRead : List Scripted → ReadBuf → Poll × ReadBuf × List Scripted
  | [], buf => (.ready (.ok ()), buf, [])
  | .pending :: script, buf => (.pending, buf, script)
  | .error msg :: script, buf => (.ready (.error (.err msg)), buf, script)
  | .data bytes :: script, buf => (.ready (.ok ()), { filled := buf.filled ++ bytes }, script)

theorem Scripted.appends (script : List Scripted) (buf : ReadBuf)
    (_ : (Scripted.pollRead script buf).1 = .ready (.ok ())) :
    buf.filled <+: (Scripted.pollRead script buf).2.1.filled := by
  cases script with
  | nil => exact List.prefix_refl _
  | cons poll script =>
      cases poll with
      | pending => exact List.prefix_refl _
      | error msg => exact List.prefix_refl _
      | data bytes => exact List.prefix_append _ _

instance : AsyncRead (List Scripted) where
  pollRead := Scripted.pollRead
  appends := Scripted.appends

-- ── The watch channel ──

/-- What the two ends of a `tokio::sync::watch` channel share: the value, how often it has
    been sent, and how many receivers there are. -/
structure Watch (α : Type) where
  value : α
  version : Nat
  receivers : Nat

/-- A receiver, by the last version that it has seen. -/
structure Receiver where
  seen : Nat

/-- `watch::channel`: the receiver counts the first value as seen. -/
def Watch.channel {α : Type} (init : α) : Watch α × Receiver :=
  ({ value := init, version := 0, receivers := 1 }, { seen := 0 })

/-- `Sender::send`: without a receiver the value is given back and the channel left as it is. -/
def Watch.send {α : Type} (progress : Watch α) (value : α) : Except α Unit × Watch α :=
  if progress.receivers = 0 then (.error value, progress)
  else (.ok (), { progress with value := value, version := progress.version + 1 })

/-- `Receiver::changed` is ready. -/
def Receiver.changed {α : Type} (readwatch : Receiver) (progress : Watch α) : Bool :=
  readwatch.seen != progress.version

/-- `Receiver::borrow_and_update`. -/
def Receiver.borrowAndUpdate {α : Type} (_ : Receiver) (progress : Watch α) : α × Receiver :=
  (progress.value, { seen := progress.version })

-- ── The progress reader ──

/-- A read wrapper that updates the download progress. -/
structure ProgressReader (T : Type) where
  reader : T
  progress : Watch Nat

namespace ProgressReader

variable {T : Type}

/-- `ProgressReader::new`. -/
def new (reader : T) : ProgressReader T × Receiver :=
  let channel := Watch.channel 1
  ({ reader := reader, progress := channel.1 }, channel.2)

variable [AsyncRead T]

/-- `ProgressReader::poll_read`. -/
def pollRead (this : ProgressReader T) (buf : ReadBuf) : Poll × ReadBuf × ProgressReader T :=
  let len := buf.filled.length
  match AsyncRead.pollRead this.reader buf with
  | (.ready (.ok ()), buf, reader) =>
      let newlen := buf.filled.length
      let read := newlen - len
      let state := this.progress.value + read
      -- the error of `send` is ignored
      (.ready (.ok ()), buf, { reader := reader, progress := (this.progress.send state).2 })
  | (o, buf, reader) => (o, buf, { this with reader := reader })

end ProgressReader

-- ── A fetch ──

/-- Sent across a channel to track the byte-level progress of a layer fetch. -/
structure LayerProgress where
  layerIndex : Nat
  fetched : Nat
  total : Nat
  deriving DecidableEq, Repr

/-- What `fetch_layer` leaves running: the reader, and the task beside it with what it has
    published. -/
structure Fetch (T : Type) where
  reader : ProgressReader T
  readwatch : Receiver
  published : List LayerProgress

/-- One step of the two. -/
inductive FetchEvent where
  | poll (buf : ReadBuf)
  | proxy

namespace Fetch

variable {T : Type}

/-- `fetch_layer` with a progress channel. -/
def start (blob : T) : Fetch T :=
  let reader := ProgressReader.new blob
  { reader := reader.1, readwatch := reader.2, published := [] }

/-- One round of `readproxy`: if the value has changed, it is published. -/
def readproxy (layerIndex size : Nat) (f : Fetch T) : Fetch T :=
  if f.readwatch.changed f.reader.progress then
    let fetched := f.readwatch.borrowAndUpdate f.reader.progress
    let status := { layerIndex := layerIndex, fetched := fetched.1, total := size }
    { f with readwatch := fetched.2, published := f.published ++ [status] }
  else f

variable [AsyncRead T]

def step (layerIndex size : Nat) (f : Fetch T) : FetchEvent → Fetch T
  | .poll buf => { f with reader := (f.reader.pollRead buf).2.2 }
  | .proxy => f.readproxy layerIndex size

/-- A fetch of `blob` after a sequence of steps. -/
def run (layerIndex size : Nat) (blob : T) (events : List FetchEvent) : Fetch T :=
  events.foldl (step layerIndex size) (start blob)

end Fetch

-- ── What has been delivered ──

section Delivered

variable {T : Type} [AsyncRead T]

/-- The wrapped reader after an event. -/
def readerStep (reader : T) : FetchEvent → T
  | .poll buf => (AsyncRead.pollRead reader buf).2.2
  | .proxy => reader

/-- The wrapped reader after the polls of a run. -/
def readerAfter (blob : T) (events : List FetchEvent) : T := events.foldl readerStep blob

/-- Whether an event is a read, and a successful one. -/
def Succeeds (reader : T) : FetchEvent → Prop
  | .poll buf => (delivers reader buf).isSome
  | .proxy => False

/-- What an event delivers. -/
def deliveredBy (reader : T) : FetchEvent → Bytes
  | .poll buf => (delivers reader buf).getD []
  | .proxy => []

/-- All that the wrapped reader delivers in a run. -/
def delivered (blob : T) : List FetchEvent → Bytes
  | [] => []
  | event :: events => deliveredBy blob event ++ delivered (readerStep blob event) events

end Delivered

/-- The byte progress of a run counts bytes: after each successful read the value of the
    channel is the number of bytes delivered; for a blob of `size` bytes, no `LayerProgress`
    reports more than the total, and once all is read the last one reports the total. -/
structure CountsBytes {T : Type} [AsyncRead T] (layerIndex size : Nat) (blob : T)
    (events : List FetchEvent) : Prop where
  value : ∀ es event, es ++ [event] <+: events → Succeeds (readerAfter blob es) event →
    (Fetch.run layerIndex size blob (es ++ [event])).reader.progress.value
      = (delivered blob (es ++ [event])).length
  fetched : (delivered blob events).length ≤ size →
    ∀ status ∈ (Fetch.run layerIndex size blob events).published, status.fetched ≤ status.total
  complete : ∀ es, es ++ [.proxy] <+: events → (delivered blob es).length = size →
    ∀ status, (Fetch.run layerIndex size blob (es ++ [.proxy])).published.getLast? = some status →
      status.fetched = status.total

-- ── One step ──

/-- Where a receiver is left, sending sets the value. -/
theorem Watch.send_value {α : Type} {progress : Watch α} (h : progress.receivers ≠ 0) (value : α) :
    (progress.send value).2 = { progress with value := value, version := progress.version + 1 } := by
  rw [Watch.send, if_neg h]

/-- The task does not touch the reader. -/
theorem Fetch.readproxy_reader {T : Type} (layerIndex size : Nat) (f : Fetch T) :
    (f.readproxy layerIndex size).reader = f.reader := by
  rw [Fetch.readproxy]
  by_cases h : f.readwatch.changed f.reader.progress = true
  · rw [if_pos h]
  · rw [if_neg h]

section Step

variable {T : Type} [AsyncRead T]

/-- A successful poll is ready, and what it delivers stands behind the prior fill. -/
theorem pollRead_of_delivers {reader : T} {buf : ReadBuf} {bytes : Bytes}
    (h : delivers reader buf = some bytes) :
    AsyncRead.pollRead reader buf = (.ready (.ok ()), { filled := buf.filled ++ bytes },
      (AsyncRead.pollRead reader buf).2.2) := by
  have happends := AsyncRead.appends reader buf
  rw [delivers] at h
  rcases hpoll : AsyncRead.pollRead reader buf with ⟨o, filledBuf, reader'⟩
  rw [hpoll] at h happends
  cases o with
  | pending => exact absurd h (by simp)
  | ready result =>
      cases result with
      | error e => exact absurd h (by simp)
      | ok u =>
          injection h with h
          have hfilled := List.prefix_iff_eq_append.mp (happends rfl)
          rw [← h, hfilled]

/-- The wrapper polls its reader once. -/
theorem ProgressReader.pollRead_reader (this : ProgressReader T) (buf : ReadBuf) :
    (this.pollRead buf).2.2.reader = (AsyncRead.pollRead this.reader buf).2.2 := by
  rw [ProgressReader.pollRead]
  rcases AsyncRead.pollRead this.reader buf with ⟨o, filledBuf, reader'⟩
  cases o with
  | pending => rfl
  | ready result =>
      cases result with
      | error e => rfl
      | ok u => rfl

/-- A successful poll adds the length of what it delivers to the value, and sends it. -/
theorem ProgressReader.pollRead_of_delivers {this : ProgressReader T} {buf : ReadBuf} {bytes : Bytes}
    (h : delivers this.reader buf = some bytes) :
    (this.pollRead buf).2.2.progress
      = (this.progress.send (this.progress.value + bytes.length)).2 := by
  have hlength : (buf.filled ++ bytes).length - buf.filled.length = bytes.length := by
    rw [List.length_append, Nat.add_sub_cancel_left]
  rw [ProgressReader.pollRead, OstreeExt.pollRead_of_delivers h]
  show (this.progress.send (this.progress.value
    + ((buf.filled ++ bytes).length - buf.filled.length))).2 = _
  rw [hlength]

/-- A poll that is pending or fails leaves the channel alone. -/
theorem ProgressReader.pollRead_of_not_delivers {this : ProgressReader T} {buf : ReadBuf}
    (h : delivers this.reader buf = none) : (this.pollRead buf).2.2.progress = this.progress := by
  rw [delivers] at h
  rw [ProgressReader.pollRead]
  rcases hpoll : AsyncRead.pollRead this.reader buf with ⟨o, filledBuf, reader'⟩
  rw [hpoll] at h
  cases o with
  | pending => rfl
  | ready result =>
      cases result with
      | error e => rfl
      | ok u => exact absurd h (by simp)

/-- **What one step does to the channel**: the receiver stays, and the value grows by what is
    delivered. -/
theorem Fetch.step_value {layerIndex size : Nat} {f : Fetch T} (event : FetchEvent)
    (h : f.reader.progress.receivers ≠ 0) :
    (f.step layerIndex size event).reader.reader = readerStep f.reader.reader event ∧
      (f.step layerIndex size event).reader.progress.receivers ≠ 0 ∧
      (f.step layerIndex size event).reader.progress.value
        = f.reader.progress.value + (deliveredBy f.reader.reader event).length := by
  cases event with
  | proxy =>
      rw [Fetch.step, Fetch.readproxy_reader]
      exact ⟨rfl, h, rfl⟩
  | poll buf =>
      refine ⟨ProgressReader.pollRead_reader _ _, ?_⟩
      rw [Fetch.step, deliveredBy]
      show (f.reader.pollRead buf).2.2.progress.receivers ≠ 0 ∧
        (f.reader.pollRead buf).2.2.progress.value = _
      cases hdelivers : delivers f.reader.reader buf with
      | none =>
          rw [ProgressReader.pollRead_of_not_delivers hdelivers]
          exact ⟨h, rfl⟩
      | some bytes =>
          rw [ProgressReader.pollRead_of_delivers hdelivers, Watch.send_value h]
          exact ⟨h, rfl⟩

/-- Without a successful poll the channel stays as it is. -/
theorem Fetch.step_progress {layerIndex size : Nat} {f : Fetch T} {event : FetchEvent}
    (h : ¬ Succeeds f.reader.reader event) :
    (f.step layerIndex size event).reader.progress = f.reader.progress := by
  cases event with
  | proxy => exact congrArg _ (Fetch.readproxy_reader layerIndex size f)
  | poll buf =>
      exact ProgressReader.pollRead_of_not_delivers (Option.not_isSome_iff_eq_none.mp h)

end Step

-- ── Runs ──

section Run

variable {T : Type} [AsyncRead T]

theorem readerAfter_concat (blob : T) (es : List FetchEvent) (event : FetchEvent) :
    readerAfter blob (es ++ [event]) = readerStep (readerAfter blob es) event := by
  rw [readerAfter, List.foldl_append]
  rfl

theorem delivered_concat (blob : T) (es : List FetchEvent) (event : FetchEvent) :
    delivered blob (es ++ [event]) = delivered blob es ++ deliveredBy (readerAfter blob es) event := by
  induction es generalizing blob with
  | nil => exact List.append_nil _
  | cons e es ih =>
      rw [List.cons_append, delivered, delivered, ih, List.append_assoc]
      rfl

theorem Fetch.run_concat (layerIndex size : Nat) (blob : T) (es : List FetchEvent)
    (event : FetchEvent) :
    Fetch.run layerIndex size blob (es ++ [event])
      = (Fetch.run layerIndex size blob es).step layerIndex size event := by
  rw [Fetch.run, List.foldl_append]
  rfl

/-- **The value is one more than the bytes delivered**, in every run. -/
theorem Fetch.run_value (layerIndex size : Nat) (blob : T) (es : List FetchEvent) :
    (Fetch.run layerIndex size blob es).reader.reader = readerAfter blob es ∧
      (Fetch.run layerIndex size blob es).reader.progress.receivers ≠ 0 ∧
      (Fetch.run layerIndex size blob es).reader.progress.value = 1 + (delivered blob es).length := by
  induction es using List.reverseRecOn with
  | nil => exact ⟨rfl, Nat.one_ne_zero, rfl⟩
  | append_singleton es event ih =>
      obtain ⟨hreader, hreceivers, hvalue⟩ := ih
      obtain ⟨hstep, hleft, hgrown⟩ := @Fetch.step_value _ _ layerIndex size _ event hreceivers
      rw [hreader] at hstep hgrown
      rw [Fetch.run_concat, readerAfter_concat, delivered_concat, List.length_append]
      refine ⟨hstep, hleft, ?_⟩
      rw [hgrown, hvalue, Nat.add_assoc]

/-- What is published is the value at some moment of the run: one more than the bytes delivered
    up to there, so at most one more than there are. -/
theorem Fetch.run_published {layerIndex size : Nat} {blob : T} {es : List FetchEvent}
    {status : LayerProgress} (h : status ∈ (Fetch.run layerIndex size blob es).published) :
    status.total = size ∧
      ∃ es', es' <+: es ∧ status.fetched = 1 + (delivered blob es').length := by
  induction es using List.reverseRecOn with
  | nil => exact absurd h List.not_mem_nil
  | append_singleton es event ih =>
      rw [Fetch.run_concat] at h
      have hbefore : status ∈ (Fetch.run layerIndex size blob es).published →
          status.total = size ∧
            ∃ es', es' <+: es ++ [event] ∧ status.fetched = 1 + (delivered blob es').length := by
        intro hmem
        obtain ⟨htotal, es', hbelow, hfetched⟩ := ih hmem
        exact ⟨htotal, es', hbelow.trans (List.prefix_append _ _), hfetched⟩
      cases event with
      | poll buf => exact hbefore h
      | proxy =>
          rw [Fetch.step, Fetch.readproxy] at h
          by_cases hchanged : (Fetch.run layerIndex size blob es).readwatch.changed
              (Fetch.run layerIndex size blob es).reader.progress = true
          · rw [if_pos hchanged] at h
            rcases List.mem_append.mp h with hmem | hnew
            · exact hbefore hmem
            · rw [List.mem_singleton.mp hnew]
              exact ⟨rfl, es, List.prefix_append _ _, (Fetch.run_value layerIndex size blob es).2.2⟩
          · rw [if_neg hchanged] at h
            exact hbefore h

/-- **Without a successful read nothing is published.** -/
theorem Fetch.run_silent {layerIndex size : Nat} {blob : T} {events : List FetchEvent}
    (h : ∀ es event, es ++ [event] <+: events → ¬ Succeeds (readerAfter blob es) event) :
    (Fetch.run layerIndex size blob events).readwatch.seen
        = (Fetch.run layerIndex size blob events).reader.progress.version ∧
      (Fetch.run layerIndex size blob events).published = [] := by
  induction events using List.reverseRecOn with
  | nil => exact ⟨rfl, rfl⟩
  | append_singleton es event ih =>
      obtain ⟨hseen, hpublished⟩ := ih
        (fun es' event' hbelow => h es' event' (hbelow.trans (List.prefix_append _ _)))
      have hnot := h es event (List.prefix_refl _)
      rw [← (Fetch.run_value layerIndex size blob es).1] at hnot
      have hprogress := @Fetch.step_progress _ _ layerIndex size _ _ hnot
      rw [Fetch.run_concat, hprogress]
      cases event with
      | poll buf => exact ⟨hseen, hpublished⟩
      | proxy =>
          have hsame : ¬ (Fetch.run layerIndex size blob es).readwatch.changed
              (Fetch.run layerIndex size blob es).reader.progress = true := by
            rw [Receiver.changed, hseen, bne_self_eq_false]
            exact Bool.false_ne_true
          rw [Fetch.step, Fetch.readproxy, if_neg hsame]
          exact ⟨hseen, hpublished⟩

/-- **The progress of a run counts bytes** exactly if no read of the run succeeds. -/
theorem countsBytes_iff (layerIndex size : Nat) (blob : T) (events : List FetchEvent) :
    CountsBytes layerIndex size blob events ↔
      ∀ es event, es ++ [event] <+: events → ¬ Succeeds (readerAfter blob es) event := by
  constructor
  · intro h es event hbelow hsucceeds
    have hvalue := h.value es event hbelow hsucceeds
    rw [(Fetch.run_value layerIndex size blob (es ++ [event])).2.2] at hvalue
    omega
  · intro h
    have hsilent : ∀ es, es <+: events → (Fetch.run layerIndex size blob es).published = [] := by
      intro es hes
      exact (Fetch.run_silent (fun es' event hbelow => h es' event (hbelow.trans hes))).2
    refine ⟨?_, ?_, ?_⟩
    · intro es event hbelow hsucceeds
      exact absurd hsucceeds (h es event hbelow)
    · intro _ status hstatus
      rw [hsilent events (List.prefix_refl _)] at hstatus
      exact absurd hstatus List.not_mem_nil
    · intro es hbelow _ status hstatus
      rw [hsilent _ hbelow] at hstatus
      exact absurd hstatus (by simp)

/-- Three bytes in one read, and a round of the task: four bytes of three are reported. -/
theorem threeBytes_not_countsBytes :
    ¬ CountsBytes 0 3 [Scripted.data [111, 115, 10]] [.poll { filled := [] }, .proxy] := by
  intro h
  have hcomplete := h.complete [.poll { filled := [] }] (List.prefix_refl _) rfl
    { layerIndex := 0, fetched := 4, total := 3 } rfl
  exact absurd hcomplete (by decide)

end Run

end OstreeExt
