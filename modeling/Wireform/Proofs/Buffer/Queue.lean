import Wireform.Buffer.Access
import Wireform.Proofs.Buffer.Live

/-!
A buffer of its own is a bounded queue of bytes.

The queue has the bytes that are ahead in the buffer, and room for as many more
as the limit leaves behind the writer. It knows nothing of a storage, so it has
no capacity and does not grow, and room that was used up does not come back
when bytes are taken. What an access has to do with a queue is its `Duty`: the
bytes that it appends, or how many it takes and what it makes of them. Compact
numbers, flags and moved cursors have none.

`Serves` is the simulation of one access: the same outcome, the same bytes sent
and taken, and nothing at all is changed by an access that is out of bounds.
The run of a list of accesses is an induction on the list.
-/

namespace Wireform

/-- A queue of bytes that has a bound on what may still be appended. -/
structure Queue where
  bytes : List UInt8
  room : Nat
  deriving DecidableEq, Repr

/-- What is asked of a queue by those who want an `α` of it. -/
inductive Duty (α : Type) where
  /-- Appends all of the bytes. -/
  | push (data : List UInt8) (done : α)
  /-- Takes `n` bytes, whatever is then made of them. -/
  | pop (n : Nat) (read : List UInt8 → Except Code α)
  /-- Looks at the next byte. -/
  | peek (read : UInt8 → α)
  /-- Takes the bytes that a window can hold. -/
  | drain (window : Nat) (read : List UInt8 → α)
  /-- Appends the bytes that fit. -/
  | pour (data : List UInt8) (done : Nat → α)
  /-- Looks at all the bytes. -/
  | survey (read : List UInt8 → α)

/-- How a duty was done: what came of it, the bytes that were appended and those that were taken. -/
structure Served (α : Type) where
  outcome : Except Code α
  sent : List UInt8 := []
  taken : List UInt8 := []

namespace Queue

variable {α : Type}

/-- A queue does all of a push or a pop, or none of it. -/
def serve (q : Queue) : Duty α → Served α
  | .push data done =>
    if data.length ≤ q.room then { outcome := .ok done, sent := data }
    else { outcome := .error .outOfBounds }
  | .pop n read =>
    if n ≤ q.bytes.length then { outcome := read (q.bytes.take n), taken := q.bytes.take n }
    else { outcome := .error .outOfBounds }
  | .peek read =>
    match q.bytes with
    | x :: _ => { outcome := .ok (read x) }
    | [] => { outcome := .error .outOfBounds }
  | .drain window read =>
    { outcome := .ok (read (q.bytes.take window)), taken := q.bytes.take window }
  | .pour data done =>
    { outcome := .ok (done (min data.length q.room)), sent := data.take q.room }
  | .survey read => { outcome := .ok (read q.bytes) }

def after (q : Queue) (s : Served α) : Queue :=
  ⟨(q.bytes ++ s.sent).drop s.taken.length, q.room - s.sent.length⟩

end Queue

/-- What is left of a source in chunks when its first `n` bytes are gone. -/
def unread : (n : Nat) → List (List UInt8) → List (List UInt8)
  | 0, chunks => chunks
  | _, [] => []
  | n + 1, chunk :: chunks =>
    if chunk.length ≤ n + 1 then unread (n + 1 - chunk.length) chunks
    else chunk.drop (n + 1) :: chunks

theorem flatten_unread (n : Nat) (chunks : List (List UInt8)) :
    (unread n chunks).flatten = chunks.flatten.drop n := by
  induction chunks generalizing n with
  | nil => cases n <;> simp [unread]
  | cons chunk chunks ih =>
      cases n with
      | zero => rfl
      | succ n =>
          unfold unread
          split
          · next hle => rw [ih, List.flatten_cons, List.drop_append, List.drop_of_length_le hle,
              List.nil_append]
          · next hlt => rw [List.flatten_cons, List.flatten_cons,
              List.drop_append_of_le_length (by omega)]

def Access.duty : (a : Access) → Option (Duty a.Answer)
  | writeBool v => some (.push (BigEndian.encode 1 v.toNat) ())
  | writeByte v => some (.push (BigEndian.encode 1 v.toUInt8.toNat) ())
  | writeOctet v => some (.push (BigEndian.encode 1 v.toNat) ())
  | writeShort v => some (.push (BigEndian.encode 2 v.toUInt16.toNat) ())
  | writeUnit v => some (.push (BigEndian.encode 2 v.toNat) ())
  | writeInt v => some (.push (BigEndian.encode 4 v.toUInt32.toNat) ())
  | writeLong v => some (.push (BigEndian.encode 8 v.toUInt64.toNat) ())
  | writeFloat bits => some (.push (BigEndian.encode 4 bits.toNat) ())
  | writeDouble bits => some (.push (BigEndian.encode 8 bits.toNat) ())
  | writeBytes data => some (.push data ())
  | writeFrom chunks => some (.pour chunks.flatten fun n => (n, unread n chunks))
  | readBool => some (.pop 1 fun e =>
      match BigEndian.decode e with
      | 0 => .ok false
      | 1 => .ok true
      | _ => .error .malformed)
  | readByte => some (.pop 1 fun e => .ok (UInt8.ofNat (BigEndian.decode e)).toInt8)
  | readOctet => some (.pop 1 fun e => .ok (UInt8.ofNat (BigEndian.decode e)))
  | peekOctet => some (.peek fun x => x)
  | readShort => some (.pop 2 fun e => .ok (UInt16.ofNat (BigEndian.decode e)).toInt16)
  | readUnit => some (.pop 2 fun e => .ok (UInt16.ofNat (BigEndian.decode e)))
  | readInt => some (.pop 4 fun e => .ok (UInt32.ofNat (BigEndian.decode e)).toInt32)
  | readLong => some (.pop 8 fun e => .ok (UInt64.ofNat (BigEndian.decode e)).toInt64)
  | readFloat => some (.pop 4 fun e => .ok (UInt32.ofNat (BigEndian.decode e)))
  | readDouble => some (.pop 8 fun e => .ok (UInt64.ofNat (BigEndian.decode e)))
  | readBytes n => some (.pop n fun e => .ok e)
  | readInto room => some (.drain room fun e => e)
  | toBytes => some (.survey fun e => e)
  | _ => none

namespace Buffer

variable {α : Type} {b : Buffer} {s : Served α} {out : Except Failure α × Buffer}
  {act : Action Buffer α}

def queue (b : Buffer) : Queue := ⟨b.ahead, b.writableBytes⟩

/-- A live buffer has done what a queue did. -/
structure Serves (b : Buffer) (s : Served α) (out : Except Failure α × Buffer) : Prop where
  outcome : out.1.mapError Failure.code = s.outcome
  live : out.2.Live
  limit : out.2.limit = b.limit
  writer : out.2.writer = b.writer + s.sent.length
  ahead : b.ahead ++ s.sent = s.taken ++ out.2.ahead
  kept : s.outcome = .error .outOfBounds → out.2 = b

theorem Serves.queue (h : b.Serves s out) : out.2.queue = b.queue.after s := by
  have hroom : out.2.writableBytes = b.writableBytes - s.sent.length := by
    rw [writableBytes, writableBytes, h.limit, h.writer, Nat.sub_sub]
  rw [Buffer.queue, Queue.after, hroom]
  exact congrArg (Queue.mk · _) (by rw [Buffer.queue, h.ahead, List.drop_left])

theorem Appended.ahead {b' : Buffer} {data : List UInt8} (h : b.Live) (hb : b.Appended data b') :
    b'.ahead = b.ahead ++ data := by
  have hle := h.reader_le_writer
  rw [← h.length_written] at hle
  rw [Buffer.ahead, hb.reader, hb.written, List.drop_append_of_le_length hle]
  rfl

/-! ### Duties, one by one -/

theorem Appended.serves {b' : Buffer} {data : List UInt8} {a : α} (h : b.Live)
    (hb : b.Appended data b') : b.Serves { outcome := .ok a, sent := data } (.ok a, b') where
  outcome := rfl
  live := hb.live
  limit := hb.limit
  writer := hb.writer
  ahead := (hb.ahead h).symm
  kept := nofun

/-- Bytes have been taken, and something was made of them. -/
theorem Live.serves_advance (h : b.Live) {n : Nat} (hn : n ≤ b.ahead.length)
    {r : Except Failure α} (hr : r.mapError Failure.code ≠ .error .outOfBounds) :
    b.Serves { outcome := r.mapError Failure.code, taken := b.ahead.take n } (r, b.advance n) where
  outcome := rfl
  live := h.advance hn
  limit := rfl
  writer := rfl
  ahead := by rw [ahead_advance, List.append_nil, List.take_append_drop]
  kept := fun hout => absurd hout hr

theorem Live.serves_same (h : b.Live) {r : Except Failure α} {o : Except Code α}
    (hr : r.mapError Failure.code = o) : b.Serves { outcome := o } (r, b) :=
  ⟨hr, h, rfl, rfl, List.append_nil _, fun _ => rfl⟩

theorem serves_push (operation : String) (data : List UInt8) (h : b.Live) :
    b.Serves (b.queue.serve (.push data ())) (put operation data b) := by
  have hlimit := h.writer_le_limit
  by_cases hroom : data.length ≤ b.limit - b.writer
  · have hserve : b.queue.serve (.push data ()) = _ := if_pos hroom
    have hfits : b.writer + data.length ≤ b.limit := by omega
    obtain ⟨b', hput, happended⟩ := put_of_room operation h hfits
    rw [hput, hserve]
    exact happended.serves h
  · have hserve : b.queue.serve (.push data ()) = _ := if_neg hroom
    rw [put_of_full operation h (by omega), hserve]
    exact h.serves_same rfl

/-- Bytes are taken first, and then something is made of them. -/
theorem serves_pop (operation : String) {n : Nat} {r : List UInt8 → Except Failure α}
    {read : List UInt8 → Except Code α}
    (hact : act = take operation n >>= fun e => Action.lift (r e))
    (hread : ∀ e, (r e).mapError Failure.code = read e)
    (hbounds : ∀ e, read e ≠ .error .outOfBounds) (h : b.Live) :
    b.Serves (b.queue.serve (.pop n read)) (act b) := by
  subst hact
  by_cases hn : n ≤ b.ahead.length
  · have hserve : b.queue.serve (.pop n read) = _ := if_pos hn
    rw [Action.bind_of_ok (take_of_le operation h hn), hserve, ← hread]
    exact h.serves_advance hn (by rw [hread]; exact hbounds _)
  · have hserve : b.queue.serve (.pop n read) = _ := if_neg hn
    rw [Action.bind_of_error (take_of_lt operation h (Nat.not_le.mp hn)), hserve]
    exact h.serves_same rfl

theorem serves_number {operation : String} {width : Nat} (f : Nat → α) (h : b.Live) :
    b.Serves (b.queue.serve (.pop width fun e => .ok (f (BigEndian.decode e))))
      ((f <$> takeNumber operation width) b) :=
  serves_pop operation (r := fun e => .ok (f (BigEndian.decode e)))
    (by rw [takeNumber, ← bind_pure_comp, ← bind_pure_comp, bind_assoc]; rfl)
    (fun _ => rfl) (fun _ => nofun) h

theorem serves_peekOctet (h : b.Live) :
    b.Serves (b.queue.serve (.peek fun x => x)) (peekOctet b) := by
  cases hahead : b.ahead with
  | nil =>
      have hserve : b.queue.serve (.peek fun x => x) = { outcome := .error .outOfBounds } := by
        rw [Queue.serve, queue, hahead]
      rw [peekOctet_of_nil h hahead, hserve]
      exact h.serves_same rfl
  | cons x rest =>
      have hserve : b.queue.serve (.peek fun x => x) = { outcome := .ok x } := by
        rw [Queue.serve, queue, hahead]
      rw [peekOctet_of_ahead h hahead, hserve]
      exact h.serves_same rfl

theorem serves_readInto (room : Nat) (h : b.Live) :
    b.Serves (b.queue.serve (.drain room fun e => e)) (readInto room b) := by
  have hserves := h.serves_advance (Nat.min_le_left b.ahead.length room)
    (r := .ok (b.ahead.take room)) nofun
  have htake : b.ahead.take (min b.ahead.length room) = b.ahead.take room :=
    List.take_eq_take_iff.mpr (by omega)
  rw [htake] at hserves
  rw [readInto_of_live room h]
  exact hserves

theorem writeChunks_of_room {chunks : List (List UInt8)} {n : Nat} (h : b.Live)
    (hn : n ≤ chunks.flatten.length) (hroom : b.writer + n ≤ b.limit) :
    ∃ b', writeChunks chunks n b = (.ok (unread n chunks), b') ∧
      b.Appended (chunks.flatten.take n) b' := by
  induction chunks generalizing b n with
  | nil =>
      obtain rfl : n = 0 := Nat.le_zero.mp hn
      exact ⟨b, rfl, .refl h⟩
  | cons chunk chunks ih =>
      cases n with
      | zero => exact ⟨b, by rw [writeChunks, if_pos rfl]; rfl, .refl h⟩
      | succ n =>
          rw [List.flatten_cons, List.length_append] at hn
          unfold writeChunks unread
          rw [if_neg (Nat.succ_ne_zero n)]
          split
          · next hempty =>
            obtain rfl := List.isEmpty_iff.mp hempty
            rw [List.length_nil, if_pos (Nat.zero_le _), Nat.sub_zero, List.flatten_cons,
              List.nil_append]
            exact ih h (by simpa using hn) hroom
          · next hempty =>
            have hdata : (chunk.take (min chunk.length (n + 1))).length =
                min chunk.length (n + 1) := by rw [List.length_take]; omega
            have hfits : b.writer + (chunk.take (min chunk.length (n + 1))).length ≤ b.limit := by
              omega
            obtain ⟨b', hput, happended⟩ := put_of_room "write_from" h hfits
            simp only
            rw [Action.bind_of_ok hput]
            split
            -- the chunk is longer than what is asked for
            · next hlt =>
              have hmin : min chunk.length (n + 1) = n + 1 := by omega
              rw [if_neg (by omega), List.flatten_cons, List.take_append_of_le_length (by omega)]
              rw [hmin] at happended ⊢
              exact ⟨b', rfl, happended⟩
            · next hge =>
              have hmin : min chunk.length (n + 1) = chunk.length := by omega
              rw [hmin, List.take_length] at happended
              have hwriter := happended.writer
              have hlimit := happended.limit
              obtain ⟨b'', hrest, happended'⟩ := ih happended.live
                (n := n + 1 - chunk.length) (by omega) (by omega)
              rw [if_pos (by omega), hmin, hrest, List.flatten_cons, List.take_append,
                List.take_of_length_le (by omega)]
              exact ⟨b'', rfl, happended.trans happended'⟩

theorem writeFrom_of_live (chunks : List (List UInt8)) (h : b.Live) :
    ∃ b', writeFrom chunks b = (.ok (min chunks.flatten.length b.writableBytes,
        unread (min chunks.flatten.length b.writableBytes) chunks), b') ∧
      b.Appended (chunks.flatten.take (min chunks.flatten.length b.writableBytes)) b' := by
  have hlimit := h.writer_le_limit
  obtain ⟨b', hwrite, happended⟩ := writeChunks_of_room h
    (Nat.min_le_left chunks.flatten.length b.writableBytes) (by rw [writableBytes]; omega)
  refine ⟨b', ?_, happended⟩
  rw [writeFrom, Action.bind_of_ok (Action.get_apply b), Action.bind_of_ok hwrite]
  rfl

theorem serves_writeFrom (chunks : List (List UInt8)) (h : b.Live) :
    b.Serves (b.queue.serve (.pour chunks.flatten fun n => (n, unread n chunks)))
      (writeFrom chunks b) := by
  obtain ⟨b', hwrite, happended⟩ := writeFrom_of_live chunks h
  have htake : chunks.flatten.take (min chunks.flatten.length b.writableBytes) =
      chunks.flatten.take b.writableBytes := List.take_eq_take_iff.mpr (by omega)
  rw [htake] at happended
  rw [hwrite]
  exact happended.serves h

end Buffer

/-- Whatever an access has for a duty, a live buffer does it as a queue does. -/
theorem Access.serves {b : Buffer} (h : b.Live) (a : Access) {u : Duty a.Answer}
    (hu : a.duty = some u) : b.Serves (b.queue.serve u) (a.run b) := by
  cases a with
  | writeBool | writeByte | writeOctet | writeShort | writeUnit | writeInt | writeLong | writeFloat
  | writeDouble | writeBytes =>
      cases hu
      exact Buffer.serves_push _ _ h
  | readOctet | readUnit | readFloat | readDouble =>
      cases hu
      exact Buffer.serves_number _ h
  | readByte =>
      cases hu
      exact Buffer.serves_number (fun n => (UInt8.ofNat n).toInt8) h
  | readShort =>
      cases hu
      exact Buffer.serves_number (fun n => (UInt16.ofNat n).toInt16) h
  | readInt =>
      cases hu
      exact Buffer.serves_number (fun n => (UInt32.ofNat n).toInt32) h
  | readLong =>
      cases hu
      exact Buffer.serves_number (fun n => (UInt64.ofNat n).toInt64) h
  | writeFrom chunks =>
      cases hu
      exact Buffer.serves_writeFrom chunks h
  | readBool =>
      cases hu
      refine Buffer.serves_pop "read_bool" (r := fun e =>
        match BigEndian.decode e with
        | 0 => .ok false
        | 1 => .ok true
        | n => .error (Fault.malformed "boolean" s!"expected 0 or 1, found {Text.hexNumeral 2 n}"))
        ?_ (fun e => ?_) (fun e => ?_) h
      · show (BigEndian.decode <$> _) >>= _ = _
        rw [← bind_pure_comp, bind_assoc]
        refine bind_congr fun e => ?_
        rw [pure_bind]
        rcases BigEndian.decode e with _ | _ | n <;> rfl
      · generalize BigEndian.decode e = n
        rcases n with _ | _ | n <;> rfl
      · generalize BigEndian.decode e = n
        rcases n with _ | _ | n <;> exact nofun
  | readBytes n =>
      cases hu
      exact Buffer.serves_pop "read_bytes" (r := .ok) (bind_pure _).symm (fun _ => rfl)
        (fun _ => nofun) h
  | peekOctet =>
      cases hu
      exact Buffer.serves_peekOctet h
  | readInto room =>
      cases hu
      exact Buffer.serves_readInto room h
  | toBytes =>
      cases hu
      show b.Serves _ (Buffer.toBytes b)
      rw [Buffer.toBytes_of_live h]
      exact h.serves_same rfl
  | _ => cases hu

/-! ### Runs -/

structure Errand where
  access : Access
  duty : Duty access.Answer
  fits : access.duty = some duty

/-- What came of an access, with failures told apart by their codes. -/
abbrev Report : Type := (a : Access) × Except Code a.Answer

structure Queue.Course where
  reports : List Report
  sent : List UInt8
  taken : List UInt8
  queue : Queue

def Queue.course : List Errand → Queue → Queue.Course
  | [], q => ⟨[], [], [], q⟩
  | e :: es, q =>
    let s := q.serve e.duty
    let rest := Queue.course es (q.after s)
    ⟨⟨e.access, s.outcome⟩ :: rest.reports, s.sent ++ rest.sent, s.taken ++ rest.taken, rest.queue⟩

namespace Buffer

variable {b : Buffer} {e : Errand}

def course : List Errand → Buffer → List Report × Buffer
  | [], b => ([], b)
  | e :: es, b =>
    let (r, b) := e.access.run b
    let (reports, b) := course es b
    (⟨e.access, r.mapError Failure.code⟩ :: reports, b)

/-- A run of a live buffer is a run of the queue that it is, and no byte gets lost or is added
between what was sent and what was taken. -/
theorem course_serves (h : b.Live) (es : List Errand) :
    (course es b).1 = (Queue.course es b.queue).reports ∧ (course es b).2.Live ∧
      (course es b).2.queue = (Queue.course es b.queue).queue ∧
      b.ahead ++ (Queue.course es b.queue).sent =
        (Queue.course es b.queue).taken ++ (course es b).2.ahead := by
  induction es generalizing b with
  | nil => exact ⟨rfl, h, rfl, List.append_nil _⟩
  | cons e es ih =>
      have hserves := e.access.serves h e.fits
      obtain ⟨hreports, hlive, hqueue, hahead⟩ := ih hserves.live
      rw [hserves.queue] at hreports hqueue hahead
      refine ⟨?_, hlive, hqueue, ?_⟩
      · show (⟨_, (e.access.run b).1.mapError Failure.code⟩ : Report) ::
          (course es (e.access.run b).2).1 = _
        rw [hserves.outcome, hreports]
        rfl
      · show b.ahead ++ (_ ++ _) = _ ++ _ ++ _
        rw [← List.append_assoc, hserves.ahead, List.append_assoc, hahead, ← List.append_assoc]
        rfl

/-- What an errand does at the two ends of a buffer. -/
structure Bounded (b : Buffer) (e : Errand) : Prop where
  /-- A write succeeds as long as it stays below the limit. -/
  push : ∀ data done, e.duty = .push data done →
    ((e.access.run b).1.isOk ↔ b.writer + data.length ≤ b.limit)
  /-- A read is out of bounds if it asks for more than is there. -/
  pop : ∀ n read, e.duty = .pop n read →
    ((e.access.run b).1.mapError Failure.code = .error .outOfBounds ↔ b.readableBytes < n)
  /-- Truth values apart, all bytes that are there can be read. -/
  total : ∀ n read, e.duty = .pop n read → e.access ≠ .readBool →
    ((e.access.run b).1.isOk ↔ n ≤ b.readableBytes)
  /-- A byte that is no truth value is taken and refused. -/
  refused : ∀ x rest, e.access = .readBool → b.ahead = x :: rest → 1 < x.toNat →
    (e.access.run b).1.mapError Failure.code = .error .malformed ∧ (e.access.run b).2.ahead = rest
  kept : (e.access.run b).1.mapError Failure.code = .error .outOfBounds → (e.access.run b).2 = b

end Buffer

section Bounds

variable {q : Queue} {α : Type} {b : Buffer} {e : Errand} {n : Nat}

theorem Queue.isOk_push {data : List UInt8} {done : α} :
    (q.serve (.push data done)).outcome.isOk ↔ data.length ≤ q.room := by
  by_cases hroom : data.length ≤ q.room
  · rw [show q.serve (.push data done) = _ from if_pos hroom]
    exact iff_of_true rfl hroom
  · rw [show q.serve (.push data done) = _ from if_neg hroom]
    exact iff_of_false nofun hroom

theorem Queue.serve_pop_of_le {read : List UInt8 → Except Code α} (h : n ≤ q.bytes.length) :
    q.serve (.pop n read) = { outcome := read (q.bytes.take n), taken := q.bytes.take n } :=
  if_pos h

theorem Queue.serve_pop_of_lt {read : List UInt8 → Except Code α} (h : q.bytes.length < n) :
    q.serve (.pop n read) = { outcome := .error .outOfBounds } :=
  if_neg (Nat.not_le.mpr h)

theorem Access.read_ok {a : Access} {read : List UInt8 → Except Code a.Answer}
    (hduty : a.duty = some (.pop n read)) (hbool : a ≠ .readBool) (bytes : List UInt8) :
    ∃ v, read bytes = .ok v := by
  cases a with
  | readBool => exact absurd rfl hbool
  | _ => cases hduty <;> exact ⟨_, rfl⟩

/-- Bytes that have been taken are not complained about as being too few. -/
theorem Access.read_ne {a : Access} {read : List UInt8 → Except Code a.Answer}
    (hduty : a.duty = some (.pop n read)) (bytes : List UInt8) :
    read bytes ≠ .error .outOfBounds := by
  by_cases hbool : a = .readBool
  · subst hbool
    cases hduty
    simp only
    generalize BigEndian.decode bytes = n
    rcases n with _ | _ | n <;> exact nofun
  · obtain ⟨v, hv⟩ := Access.read_ok hduty hbool bytes
    rw [hv]
    exact nofun

theorem Buffer.isOk_mapError (r : Except Failure α) :
    (r.mapError Failure.code).isOk = r.isOk := by
  cases r <;> rfl

theorem Buffer.Live.bounded (h : b.Live) (e : Errand) : b.Bounded e := by
  have hserves := e.access.serves h e.fits
  have hlimit := h.writer_le_limit
  have hlen : b.queue.bytes.length = b.readableBytes := h.length_ahead
  constructor
  · intro data done hduty
    rw [← isOk_mapError, hserves.outcome, hduty, Queue.isOk_push]
    show data.length ≤ b.limit - b.writer ↔ _
    omega
  · intro n read hduty
    rw [hserves.outcome, hduty]
    rcases Nat.lt_or_ge b.readableBytes n with hlt | hle
    · rw [Queue.serve_pop_of_lt (hlen ▸ hlt)]
      exact iff_of_true rfl hlt
    · rw [Queue.serve_pop_of_le (hlen ▸ hle)]
      exact iff_of_false (Access.read_ne (hduty ▸ e.fits) _) (Nat.not_lt.mpr hle)
  · intro n read hduty hbool
    rw [← isOk_mapError, hserves.outcome, hduty]
    rcases Nat.lt_or_ge b.readableBytes n with hlt | hle
    · rw [Queue.serve_pop_of_lt (hlen ▸ hlt)]
      exact iff_of_false nofun (Nat.not_le.mpr hlt)
    · obtain ⟨v, hv⟩ := Access.read_ok (hduty ▸ e.fits) hbool (b.queue.bytes.take n)
      rw [Queue.serve_pop_of_le (hlen ▸ hle), hv]
      exact iff_of_true rfl hle
  · intro x rest hbool hahead hx
    obtain ⟨a, u, fits⟩ := e
    obtain rfl : a = .readBool := hbool
    cases fits
    have hbytes : b.queue.bytes.take 1 = [x] := by
      rw [Buffer.queue, hahead]
      rfl
    have hread : BigEndian.decode [x] = x.toNat - 2 + 2 := by
      rw [BigEndian.decode_cons]
      simp [BigEndian.decode, BigEndian.span]
      omega
    rw [Queue.serve_pop_of_le (by rw [Buffer.queue, hahead]; exact Nat.le_add_left 1 _), hbytes,
      hread] at hserves
    have hmoved := hserves.ahead
    rw [List.append_nil, hahead] at hmoved
    exact ⟨hserves.outcome, (List.cons.inj hmoved).2.symm⟩
  · intro hout
    exact hserves.kept (hserves.outcome.symm.trans hout)

/-- A live buffer is a bounded queue: its queue alone says what comes of any errands and what is
there to be read in the end, however the storage has grown. -/
theorem Buffer.refines_queue (h : b.Live) (es : List Errand) :
    (course es b).1 = (Queue.course es b.queue).reports ∧
      (course es b).2.queue = (Queue.course es b.queue).queue ∧
      (toBytes (course es b).2).1 =
        .ok ((b.ahead ++ (Queue.course es b.queue).sent).drop
          (Queue.course es b.queue).taken.length) ∧
      (Queue.course es b.queue).taken <+: b.ahead ++ (Queue.course es b.queue).sent ∧
      ∀ e, (course es b).2.Bounded e := by
  obtain ⟨hreports, hlive, hqueue, hahead⟩ := course_serves h es
  refine ⟨hreports, hqueue, ?_, ?_, hlive.bounded⟩
  · rw [toBytes_of_live hlive, hahead, List.drop_left]
  · exact ⟨_, hahead.symm⟩

/-- Three bytes are the limit, so the number of four bytes is refused between a read and a write
that go through, and the buffer grows from nothing on the way. -/
theorem Buffer.refines_queue_three : (create 0 3).Live ∧
    (toBytes (course [⟨.writeShort 258, _, rfl⟩, ⟨.readOctet, _, rfl⟩, ⟨.writeInt 1, _, rfl⟩,
      ⟨.writeOctet 7, _, rfl⟩] (create 0 3)).2).1 = .ok [2, 7] := by
  have h : (create 0 3).Live := ⟨rfl, by decide, by decide, by decide⟩
  obtain ⟨-, -, hbytes, -⟩ := refines_queue h _
  exact ⟨h, hbytes.trans rfl⟩

end Bounds

end Wireform
