import Libhp.Net.ReadA
import Libhp.Lib.Run
import Mathlib.Data.List.Flatten

/-!
# Writing and reading n bytes

`writen` and `readn` of `hp_net.c` at the two ends of a pipe or a connection: one program writes
messages, another one reads as many bytes for each of them. The kernel in between has room for
`cap` bytes, takes and gives any part of what it is asked for, and interrupts any call.
-/
namespace Libhp.Net
open Libhp.Io (Byte EINTR EAGAIN)

/-- What `write` and `read` answer: a number of bytes, or -1 with `errno`. -/
inductive SysRes where
  | done (n : Nat)
  | fail (errno : Int)
  deriving DecidableEq, Repr

def SysRes.count : SysRes → Nat
  | .done n => n
  | .fail _ => 0

/-- A round of the loop of `writen`, where `left` are the `nleft` bytes at `ptr`: what is left
then, or `none` if -1 is returned. -/
def writenRound (left : List Byte) : SysRes → Option (List Byte)
  | .fail errno => if errno = EINTR ∨ errno = EAGAIN then some left else none
  | .done 0 => none
  | .done (n + 1) => some (left.drop (n + 1))

/-- `readn` goes on with these bytes in the buffer, or returns. -/
inductive ReadnNext where
  | more (buf : List Byte)
  | ret (rc : Int)

/-- A round of the loop of `readn`, where `buf` are the bytes in front of `ptr`. -/
def readnRound (buf : List Byte) : ReadRes → ReadnNext
  | .fail errno => if errno = EINTR ∨ errno = EAGAIN then .more buf else .ret (-1)
  | .got [] => .ret buf.length
  | .got (c :: cs) => .more (buf ++ c :: cs)

/-- The two programs and what is between them. `calls` are the writer's calls, of the first one
only what is left; it closes its end behind the last one and when one fails. `lens` are the
reader's calls, `buf` what the first one has read, `got` what those before it have returned; it
stops when a call returns something else than `n`, which is `rc`. -/
structure Pipe where
  cap : Nat
  calls : List (List Byte)
  failed : Bool
  pipe : List Byte
  lens : List Nat
  buf : List Byte
  got : List (List Byte)
  rc : Option Int

def Pipe.start (cap : Nat) (msgs : List (List Byte)) (lens : List Nat) : Pipe where
  cap := cap
  calls := msgs
  failed := false
  pipe := []
  lens := lens
  buf := []
  got := []
  rc := none

/-- The writer has closed its end. -/
def Pipe.Closed (s : Pipe) : Prop := s.failed = true ∨ s.calls = []

instance (s : Pipe) : Decidable s.Closed := inferInstanceAs (Decidable (_ ∨ _))

inductive PipeAct where
  | write (r : SysRes)
  | written
  | read (r : SysRes)
  | readDone
  deriving DecidableEq, Repr

/-- The answer to `read`. -/
def Pipe.gives (s : Pipe) : SysRes → ReadRes
  | .done n => .got (s.pipe.take n)
  | .fail errno => .fail errno

def Pipe.step (s : Pipe) : PipeAct → Option Pipe
  | .write r =>
    match s.failed, s.calls with
    | false, (c :: cs) :: rest =>
      if r.count ≤ (c :: cs).length ∧ s.pipe.length + r.count ≤ s.cap then
        let pipe := s.pipe ++ (c :: cs).take r.count
        match writenRound (c :: cs) r with
        | some left => some { s with pipe := pipe, calls := left :: rest }
        | none => some { s with pipe := pipe, failed := true }
      else none
    | _, _ => none
  | .written =>
    match s.failed, s.calls with
    | false, [] :: rest => some { s with calls := rest }
    | _, _ => none
  | .read r =>
    match s.rc, s.lens with
    | none, n :: _ =>
      if s.buf.length < n ∧ r.count ≤ n - s.buf.length ∧ r.count ≤ s.pipe.length ∧
          -- the end of the file is found when nothing is left and nothing will come
          (r = .done 0 → s.pipe = [] ∧ s.Closed) then
        match readnRound s.buf (s.gives r) with
        | .more buf => some { s with pipe := s.pipe.drop r.count, buf := buf }
        | .ret rc => some { s with rc := some rc }
      else none
    | _, _ => none
  | .readDone =>
    match s.rc, s.lens with
    | none, n :: lens =>
      if s.buf.length = n then some { s with lens := lens, buf := [], got := s.got ++ [s.buf] }
      else none
    | _, _ => none

/-- `msgs` are written and `lens` read. -/
structure Pipe.Inv (msgs : List (List Byte)) (lens : List Nat) (s : Pipe) : Prop where
  stream : s.got.flatten ++ s.buf ++ s.pipe ++ s.calls.flatten = msgs.flatten
  lengths : s.got.map List.length ++ s.lens = lens
  room : ∀ n ls, s.lens = n :: ls → s.buf.length ≤ n
  ended : ∀ rc, s.rc = some rc → rc = -1 ∨ rc = s.buf.length ∧ s.pipe = [] ∧ s.Closed ∧
    ∃ n ls, s.lens = n :: ls ∧ s.buf.length < n

/-- What a reader of messages has at any time: whole messages, the first ones in their order, and
the beginning of the next one, for which there is room. Only -1 or the end of the file stop it. -/
structure Pipe.Gets (msgs : List (List Byte)) (s : Pipe) : Prop where
  whole : s.got <+: msgs
  next : ∀ n ls, s.lens = n :: ls → ∃ m, msgs[s.got.length]? = some m ∧ m.length = n ∧ s.buf <+: m
  ended : ∀ rc, s.rc = some rc → rc = -1 ∨ rc = s.buf.length ∧ s.failed = true

/-- No call fails for good. -/
def Soft : PipeAct → Bool
  | .write (.fail errno) | .read (.fail errno) => errno = EINTR ∨ errno = EAGAIN
  | .write (.done n) => 0 < n
  | _ => true

/-- The step is not a call that was interrupted. -/
def Moves : PipeAct → Bool
  | .write (.fail _) | .read (.fail _) => false
  | _ => true

/-- How much is left to do. -/
def Pipe.todo (s : Pipe) : Nat :=
  2 * s.calls.flatten.length + s.calls.length + s.pipe.length + s.lens.length

section
variable {msgs : List (List Byte)} {lens : List Nat} {s s' : Pipe} {a : PipeAct}

/-- What the steps do. -/
inductive Pipe.Does (s : Pipe) : PipeAct → Pipe → Prop
  | sent {n left rest} (hopen : s.failed = false) (hcalls : s.calls = left :: rest) (hpos : 0 < n)
    (hn : n ≤ left.length) :
    s.Does (.write (.done n)) { s with
      pipe := s.pipe ++ left.take n, calls := left.drop n :: rest }
  | sendRetry {errno} (hsoft : errno = EINTR ∨ errno = EAGAIN) : s.Does (.write (.fail errno)) s
  | sendFailed {r} (hhard : Soft (.write r) = false) :
    s.Does (.write r) { s with failed := true }
  | written {rest} (hcalls : s.calls = [] :: rest) : s.Does .written { s with calls := rest }
  | received {n k lens} (hrc : s.rc = none) (hlens : s.lens = n :: lens) (hpos : 0 < k)
    (hroom : k ≤ n - s.buf.length) (hk : k ≤ s.pipe.length) :
    s.Does (.read (.done k)) { s with pipe := s.pipe.drop k, buf := s.buf ++ s.pipe.take k }
  | readRetry {errno} (hsoft : errno = EINTR ∨ errno = EAGAIN) : s.Does (.read (.fail errno)) s
  | readFailed {errno} (hhard : ¬ (errno = EINTR ∨ errno = EAGAIN)) :
    s.Does (.read (.fail errno)) { s with rc := some (-1) }
  | eof {n lens} (hlens : s.lens = n :: lens) (hmore : s.buf.length < n) (hpipe : s.pipe = [])
    (hclosed : s.Closed) : s.Does (.read (.done 0)) { s with rc := some s.buf.length }
  | readDone {n lens} (hrc : s.rc = none) (hlens : s.lens = n :: lens) (hn : s.buf.length = n) :
    s.Does .readDone { s with lens := lens, buf := [], got := s.got ++ [s.buf] }

theorem Pipe.step_does (h : s.step a = some s') : s.Does a s' := by
  cases a with
  | write r =>
    simp only [Pipe.step] at h
    split at h
    · next c cs rest hopen hcalls =>
      split at h
      · next hfits =>
        cases r with
        | done n =>
          cases n with
          | zero =>
            simp only [writenRound, SysRes.count, List.take_zero, List.append_nil] at h
            cases h
            exact .sendFailed rfl
          | succ n =>
            simp only [writenRound, SysRes.count] at h
            cases h
            exact .sent hopen hcalls (Nat.succ_pos n) hfits.1
        | fail errno =>
          simp only [writenRound, SysRes.count, List.take_zero, List.append_nil] at h
          by_cases hsoft : errno = EINTR ∨ errno = EAGAIN
          · rw [if_pos hsoft] at h
            cases h
            rw [← hcalls]
            exact .sendRetry hsoft
          · rw [if_neg hsoft] at h
            cases h
            exact .sendFailed (decide_eq_false hsoft)
      · cases h
    · cases h
  | written =>
    simp only [Pipe.step] at h
    split at h
    · next hcalls =>
      cases h
      exact .written hcalls
    · cases h
  | read r =>
    simp only [Pipe.step] at h
    split at h
    · next n ls hrc hlens =>
      split at h
      · next hfits =>
        obtain ⟨hmore, hroom, hk, heof⟩ := hfits
        cases r with
        | done k =>
          simp only [SysRes.count] at hroom hk h
          rcases Nat.eq_zero_or_pos k with rfl | hpos
          · obtain ⟨hpipe, hclosed⟩ := heof rfl
            simp only [Pipe.gives, List.take_zero, readnRound] at h
            cases h
            exact .eof hlens hmore hpipe hclosed
          · obtain ⟨c, cs, htake⟩ : ∃ c cs, s.pipe.take k = c :: cs := by
              apply List.exists_cons_of_length_pos
              rw [List.length_take]
              omega
            have hgives : readnRound s.buf (s.gives (.done k)) =
                .more (s.buf ++ s.pipe.take k) := by
              rw [Pipe.gives, htake]
              rfl
            rw [hgives] at h
            cases h
            exact .received hrc hlens hpos hroom hk
        | fail errno =>
          simp only [Pipe.gives, readnRound, SysRes.count, List.drop_zero] at h
          by_cases hsoft : errno = EINTR ∨ errno = EAGAIN
          · rw [if_pos hsoft] at h
            cases h
            exact .readRetry hsoft
          · rw [if_neg hsoft] at h
            cases h
            exact .readFailed hsoft
      · cases h
    · cases h
  | readDone =>
    simp only [Pipe.step] at h
    split at h
    · next n ls hrc hlens =>
      split at h
      · next hn =>
        cases h
        exact .readDone hrc hlens hn
      · cases h
    · cases h

theorem Pipe.start_inv (cap : Nat) : (Pipe.start cap msgs lens).Inv msgs lens where
  stream := rfl
  lengths := rfl
  room _ _ _ := Nat.zero_le _
  ended _ h := by cases h

theorem Pipe.Inv.step (h : s.Inv msgs lens) (hdo : s.Does a s') : s'.Inv msgs lens := by
  cases hdo with
  | @sent n left rest hopen hcalls hpos hn =>
    refine ⟨?_, h.lengths, h.room, fun rc hrc => (h.ended rc hrc).imp_right ?_⟩
    · rw [← h.stream, hcalls, List.flatten_cons, List.flatten_cons, ← List.append_assoc _ (s.pipe),
        List.append_assoc _ (left.take n), ← List.append_assoc (left.take n), List.take_append_drop]
    · rintro ⟨-, -, hclosed | hnil, -⟩
      · rw [hopen] at hclosed
        cases hclosed
      · rw [hcalls] at hnil
        cases hnil
  | sendFailed hhard =>
    refine ⟨h.stream, h.lengths, h.room, fun rc hrc => (h.ended rc hrc).imp_right ?_⟩
    rintro ⟨hlen, hpipe, -, hmore⟩
    exact ⟨hlen, hpipe, .inl rfl, hmore⟩
  | @written rest hcalls =>
    refine ⟨?_, h.lengths, h.room, fun rc hrc => (h.ended rc hrc).imp_right ?_⟩
    · rw [← h.stream, hcalls, List.flatten_cons, List.nil_append]
    · rintro ⟨hlen, hpipe, hclosed | hnil, hmore⟩
      · exact ⟨hlen, hpipe, .inl hclosed, hmore⟩
      · rw [hcalls] at hnil
        cases hnil
  | @received n k ls hrc hlens hpos hroom hk =>
    refine ⟨?_, h.lengths, fun n' ls' hl => ?_, fun rc hrc' => ?_⟩
    · rw [← h.stream, ← List.append_assoc, List.append_assoc _ (s.pipe.take k),
        List.take_append_drop]
    · rw [hlens] at hl
      cases hl
      have hle := h.room n ls hlens
      rw [List.length_append, List.length_take]
      omega
    · rw [hrc] at hrc'
      cases hrc'
  | sendRetry => exact h
  | readRetry => exact h
  | readFailed => exact ⟨h.stream, h.lengths, h.room, fun rc hrc => .inl (Option.some.inj hrc).symm⟩
  | eof hlens hmore hpipe hclosed =>
    exact ⟨h.stream, h.lengths, h.room,
      fun rc hrc => .inr ⟨(Option.some.inj hrc).symm, hpipe, hclosed, _, _, hlens, hmore⟩⟩
  | @readDone n ls hrc hlens hn =>
    refine ⟨?_, ?_, fun _ _ _ => Nat.zero_le _, fun rc hrc' => ?_⟩
    · rw [← h.stream, List.flatten_append, List.flatten_singleton, List.append_nil]
    · rw [← h.lengths, hlens, List.map_append, List.map_singleton, hn, List.append_assoc]
      rfl
    · rw [hrc] at hrc'
      cases hrc'

/-- What has been read whole are the first messages, and the next bytes belong to the next one. -/
theorem Pipe.Inv.cut (h : s.Inv msgs (msgs.map List.length)) :
    s.got <+: msgs ∧ s.lens = (msgs.drop s.got.length).map List.length ∧
      s.buf ++ s.pipe ++ s.calls.flatten = (msgs.drop s.got.length).flatten := by
  have hlengths : s.got.map List.length = (msgs.take s.got.length).map List.length := by
    rw [List.map_take, ← h.lengths, List.take_left' (List.length_map _)]
  have hsplit : msgs.flatten = (msgs.take s.got.length).flatten ++
      (msgs.drop s.got.length).flatten := by
    rw [← List.flatten_append, List.take_append_drop]
  have hlen : s.got.flatten.length = (msgs.take s.got.length).flatten.length := by
    rw [List.length_flatten, List.length_flatten, hlengths]
  have hstream := h.stream
  rw [hsplit, List.append_assoc, List.append_assoc] at hstream
  obtain ⟨hgot, hrest⟩ := List.append_inj hstream hlen
  refine ⟨?_, ?_, by rw [List.append_assoc]; exact hrest⟩
  · rw [List.eq_iff_flatten_eq.mpr ⟨hgot, hlengths⟩]
    exact List.take_prefix _ _
  · rw [List.map_drop, ← h.lengths, List.drop_left' (List.length_map _)]

theorem Pipe.Inv.gets (h : s.Inv msgs (msgs.map List.length)) : s.Gets msgs := by
  obtain ⟨hwhole, hlens, hrest⟩ := h.cut
  have hnext : ∀ n ls, s.lens = n :: ls → ∃ m ms, msgs.drop s.got.length = m :: ms ∧
      m.length = n := by
    intro n ls hl
    cases hdrop : msgs.drop s.got.length with
    | nil =>
      rw [hlens, hdrop] at hl
      cases hl
    | cons m ms =>
      rw [hlens, hdrop, List.map_cons] at hl
      exact ⟨m, ms, rfl, (List.cons.inj hl).1⟩
  refine ⟨hwhole, fun n ls hl => ?_, fun rc hrc => (h.ended rc hrc).imp_right ?_⟩
  · obtain ⟨m, ms, hdrop, hm⟩ := hnext n ls hl
    have hget : msgs[s.got.length]? = some m := by
      rw [← List.head?_drop, hdrop, List.head?_cons]
    refine ⟨m, hget, hm, ?_⟩
    rw [hdrop, List.flatten_cons, List.append_assoc] at hrest
    refine List.prefix_of_prefix_length_le (List.prefix_append _ _) ⟨_, hrest.symm⟩ ?_
    exact hm ▸ h.room n ls hl
  · rintro ⟨hlen, hpipe, hfailed | hdone, n, ls, hl, hmore⟩
    · exact ⟨hlen, hfailed⟩
    · -- the writer has finished, so that the message would be there
      obtain ⟨m, ms, hdrop, hm⟩ := hnext n ls hl
      rw [hpipe, hdone, hdrop, List.append_nil, List.flatten_nil, List.append_nil] at hrest
      rw [hrest, List.flatten_cons, List.length_append] at hmore
      omega

/-- In every run, where the reader asks for the lengths of the messages in turn: what it has read
whole are the first messages, in order, and what it has of the next one is its beginning. A call
of `readn` that returns something else than what it was asked for has failed or, short, has found
that a call of `writen` has. -/
theorem readn_gets (cap : Nat) (msgs : List (List Byte)) (s : Pipe)
    (h : Run.Along Pipe.step (fun _ _ => True) (.start cap msgs (msgs.map List.length)) s) :
    s.Gets msgs :=
  Pipe.Inv.gets <| h.invariant (Pipe.start_inv cap) fun _ _ _ hs hstep _ =>
    hs.step (Pipe.step_does hstep)

/-- The second message is cut off. -/
theorem readn_gets_short : ∃ s : Pipe, (s.got = [[1, 2]] ∧ s.rc = some 1) ∧
    s.Gets [[1, 2], [3, 4]] := by
  obtain ⟨s, hrun, hs⟩ : ∃ s, Run.Along Pipe.step (fun _ _ => True)
      (.start 2 [[1, 2], [3, 4]] [2, 2]) s ∧ (s.got = [[1, 2]] ∧ s.rc = some 1) :=
    Run.along_any (fun _ _ => true)
      [.write (.done 1), .read (.fail EINTR), .read (.done 1), .write (.done 1), .written,
        .write (.fail EAGAIN), .write (.done 1), .write (.fail 32), .read (.done 1), .readDone,
        .read (.done 1), .read (.done 0)]
      (fun _ _ _ => trivial) _ (by decide +kernel)
  exact ⟨s, hs, readn_gets 2 [[1, 2], [3, 4]] s hrun⟩

/-- No call has failed for good. -/
structure Pipe.Going (msgs : List (List Byte)) (s : Pipe) : Prop where
  inv : s.Inv msgs (msgs.map List.length)
  sending : s.failed = false
  receiving : s.rc = none
  room : 0 < s.cap

/-- A soft step goes on, and leaves less to do if it moves something. -/
theorem Pipe.Going.step (h : s.Going msgs) (hdo : s.Does a s') (hsoft : Soft a = true) :
    s'.Going msgs ∧ [a].countP Moves + s'.todo ≤ s.todo := by
  have hinv := h.inv.step hdo
  cases hdo with
  | @sent n left rest hopen hcalls hpos hn =>
    refine ⟨⟨hinv, h.sending, h.receiving, h.room⟩, ?_⟩
    simp only [List.countP_singleton, Moves, if_true, Pipe.todo, hcalls, List.flatten_cons,
      List.length_append, List.length_take, List.length_drop, List.length_cons]
    omega
  | sendRetry => exact ⟨h, Nat.le_of_eq (Nat.zero_add _)⟩
  | sendFailed hhard =>
    rw [hhard] at hsoft
    cases hsoft
  | written hcalls =>
    refine ⟨⟨hinv, h.sending, h.receiving, h.room⟩, ?_⟩
    simp only [List.countP_singleton, Moves, if_true, Pipe.todo, hcalls, List.flatten_cons,
      List.nil_append, List.length_cons]
    omega
  | received hrc hlens hpos hroom hk =>
    refine ⟨⟨hinv, h.sending, h.receiving, h.room⟩, ?_⟩
    simp only [List.countP_singleton, Moves, if_true, Pipe.todo, List.length_drop]
    omega
  | readRetry => exact ⟨h, Nat.le_of_eq (Nat.zero_add _)⟩
  | readFailed hhard => exact absurd (of_decide_eq_true hsoft) hhard
  | eof =>
    -- the file does not end while a message is to come
    rcases hinv.gets.ended _ rfl with hneg | ⟨-, hfailed⟩
    · omega
    · rw [h.sending] at hfailed
      cases hfailed
  | readDone hrc hlens hn =>
    refine ⟨⟨hinv, h.sending, h.receiving, h.room⟩, ?_⟩
    simp only [List.countP_singleton, Moves, if_true, Pipe.todo, hlens, List.length_cons]
    omega

theorem Pipe.Going.run (as : List PipeAct) (h : s.Going msgs)
    (hrun : Run.follow Pipe.step (fun _ a => Soft a) as s = some s') :
    s'.Going msgs ∧ as.countP Moves + s'.todo ≤ s.todo := by
  induction as generalizing s with
  | nil =>
    cases hrun
    exact ⟨h, Nat.le_of_eq (Nat.zero_add _)⟩
  | cons a as ih =>
    unfold Run.follow at hrun
    split at hrun
    · next hsoft =>
      obtain ⟨t, hstep, hrest⟩ := Option.bind_eq_some_iff.mp hrun
      obtain ⟨hgoing, hless⟩ := h.step (Pipe.step_does hstep) hsoft
      obtain ⟨hend, hrestLess⟩ := ih hgoing hrest
      refine ⟨hend, ?_⟩
      rw [← List.singleton_append, List.countP_append]
      omega
    · cases hrun

/-- As long as something is to be read, one of the two can go on. -/
theorem Pipe.Going.moves (h : s.Going msgs) (hlens : s.lens ≠ []) :
    ∃ a, Moves a = true ∧ Soft a = true ∧ (s.step a).isSome = true := by
  obtain ⟨n, ls, hcons⟩ := List.exists_cons_of_ne_nil hlens
  have hle := h.inv.room n ls hcons
  rcases Nat.lt_or_eq_of_le hle with hmore | hfull
  · by_cases hpipe : s.pipe = []
    · cases hcalls : s.calls with
      | nil =>
        have heof : s.Does (.read (.done 0)) { s with rc := some s.buf.length } :=
          .eof hcons hmore hpipe (.inr hcalls)
        exact absurd (h.step heof rfl).1.receiving (Option.some_ne_none _)
      | cons left rest =>
        cases left with
        | nil => exact ⟨.written, rfl, rfl, by simp only [Pipe.step, h.sending, hcalls]; rfl⟩
        | cons c cs =>
          refine ⟨.write (.done 1), rfl, rfl, ?_⟩
          have hroom := h.room
          simp only [Pipe.step, h.sending, hcalls]
          rw [if_pos ⟨by simp [SysRes.count], by rw [hpipe]; exact hroom⟩]
          rfl
    · refine ⟨.read (.done 1), rfl, rfl, ?_⟩
      have hpos := List.length_pos_of_ne_nil hpipe
      have hfits : s.buf.length < n ∧ SysRes.count (.done 1) ≤ n - s.buf.length ∧
          SysRes.count (.done 1) ≤ s.pipe.length ∧
          (SysRes.done 1 = .done 0 → s.pipe = [] ∧ s.Closed) :=
        ⟨hmore, Nat.le_sub_of_add_le (by simpa [SysRes.count, Nat.add_comm] using hmore), hpos,
          fun h => by cases h⟩
      simp only [Pipe.step, h.receiving, hcons]
      rw [if_pos hfits]
      split <;> rfl
  · refine ⟨.readDone, rfl, rfl, ?_⟩
    simp only [Pipe.step, h.receiving, hcons, if_pos hfull]
    rfl

/-- However the calls are cut and interrupted, as long as none of them fails: no more than so
many steps of a run move anything, and until all messages have arrived another one can. -/
theorem writen_readn_deliver (cap : Nat) (hcap : 0 < cap) (msgs : List (List Byte))
    (as : List PipeAct) (s : Pipe)
    (h : Run.follow Pipe.step (fun _ a => Soft a) as
      (.start cap msgs (msgs.map List.length)) = some s) :
    as.countP Moves ≤ 2 * (msgs.flatten.length + msgs.length) ∧
      (s.got = msgs ∨ ∃ a, Moves a = true ∧ Soft a = true ∧ (s.step a).isSome = true) := by
  have hstart : (Pipe.start cap msgs (msgs.map List.length)).Going msgs :=
    ⟨Pipe.start_inv cap, rfl, rfl, hcap⟩
  obtain ⟨hgoing, hless⟩ := hstart.run as h
  refine ⟨?_, ?_⟩
  · simp only [Pipe.todo, Pipe.start, List.length_nil, List.length_map] at hless
    omega
  · by_cases hlens : s.lens = []
    · left
      obtain ⟨hwhole, hdrop, -⟩ := hgoing.inv.cut
      rw [hlens, eq_comm, List.map_eq_nil_iff, List.drop_eq_nil_iff] at hdrop
      exact hwhole.eq_of_length_le hdrop
    · exact .inr (hgoing.moves hlens)

theorem writen_readn_deliver_two :
    [PipeAct.write (.done 2), .write (.fail EINTR), .read (.done 2)].countP Moves ≤ 8 ∧
      ∃ s : Pipe, s.buf = [1, 2] ∧ (s.got = [[1, 2, 3]] ∨
        ∃ a, Moves a = true ∧ Soft a = true ∧ (s.step a).isSome = true) := by
  have h := writen_readn_deliver 2 (by decide) [[1, 2, 3]]
    [.write (.done 2), .write (.fail EINTR), .read (.done 2)] _ rfl
  exact ⟨h.1, _, rfl, h.2⟩

end

end Libhp.Net
