import Libhp.Io.Uio

/-!
# The read side

`hp_rd` of `hp_io.c` and `hp_io_t_on_data` of `hp_io_t.cpp`, which a connection
installs as its `data` callback. `i_buf` is modelled by its first `i_buflen`
bytes. One call of `hp_rd_read` is described by what `read()` answers during it:
the chunks it delivers, then the result that ends the call. A `none` stands for a
callback that keeps its loop going for ever.
-/
namespace Libhp.Io

structure HpRd where
  iBuf : List Byte
  I_BUF_MAX : Nat
  iBytes : Nat
  err : Int
  deriving DecidableEq, Repr

def hpRdInit (bufrlen : Int) : HpRd :=
  let bufrlen := if bufrlen ≤ 0 then 1024 * 8 else bufrlen.toNat
  { iBuf := [], I_BUF_MAX := bufrlen, iBytes := 0, err := 0 }

/-- A result of `read()` that is not positive: 0, or -1; both leave an `errno`. -/
inductive RdEnd where
  | eof (errno : Int)
  | fail (errno : Int)
  deriving DecidableEq, Repr

def RdEnd.errno : RdEnd → Int
  | eof e => e
  | fail e => e

/-- Read again later. -/
def RdEnd.again : RdEnd → Bool
  | eof _ => false
  | fail e => e = EINTR || e = EAGAIN

structure RdCall where
  chunks : List (List Byte)
  last : RdEnd
  deriving DecidableEq, Repr

def RdCall.bytes (c : RdCall) : List Byte := c.chunks.flatten

/-- A result of `read()`. -/
inductive RdRes where
  | got (chunk : List Byte)
  | done (last : RdEnd)
  deriving DecidableEq, Repr

/-- What the read path needs from outside: the callbacks of `hp_rd`, and `note`, run where
`hp_rd_read` reports a result of `read()` (`hp_iostat_update` for a chunk, the log line
for EOF or an error). -/
structure RdOps (σ : Type) where
  data : Option (List Byte → σ → Option (Int × List Byte × σ))
  readError : Option (HpRd → Int → σ → HpRd × σ)
  note : RdRes → σ → σ

/-- The space `read()` is offered. -/
def HpRd.request (rd : HpRd) : Nat := rd.I_BUF_MAX - rd.iBuf.length

def rdGrow (rd : HpRd) : HpRd :=
  if rd.iBuf.length < rd.I_BUF_MAX then rd else { rd with I_BUF_MAX := rd.I_BUF_MAX * 2 }

def rdGot (rd : HpRd) (chunk : List Byte) : HpRd :=
  { rd with iBytes := rd.iBytes + chunk.length, iBuf := rd.iBuf ++ chunk }

section
variable {σ : Type} (data : List Byte → σ → Option (Int × List Byte × σ))

def rdData (rd : HpRd) (s : σ) : Option (Int × HpRd × σ) :=
  if rd.iBuf.length > 0 then
    (data rd.iBuf s).map fun (rc, buf, s) => (rc, { rd with iBuf := buf }, s)
  else some (0, rd, s)

/-- A turn of the loop of `hp_rd_read` up to its `read()`: parse, then make room. -/
def rdTurn (rd : HpRd) (s : σ) : Option (Int × HpRd × σ) :=
  (rdData data rd s).map fun (rc, rd, s) =>
    if rc < 0 then (rc, { rd with err := rc }, s) else (rc, rdGrow rd, s)

end

section
variable {σ : Type} (ops : RdOps σ) (data : List Byte → σ → Option (Int × List Byte × σ))

/-- What `hp_rd_read` does with a result of `read()` that is not positive. -/
def rdLast (last : RdEnd) (rd : HpRd) (s : σ) : Option (HpRd × σ) :=
  if last.again then some (rd, s)
  else
    let rd := { rd with err := if last.errno = 0 then EIO else last.errno }
    -- the result of this last data call is not looked at
    (rdData data rd (ops.note (.done last) s)).map fun (_, rd, s) =>
      match ops.readError with
      | some f => f rd rd.err s
      | none => (rd, s)

/-- The loop of `hp_rd_read`: `read()` delivers `chunks` one by one, then `last`. -/
def hpRdReadLoop (last : RdEnd) :
    List (List Byte) → HpRd → Nat → σ → Option (Nat × HpRd × σ)
  | [], rd, iBytes, s =>
    (rdTurn data rd s).bind fun (rc, rd, s) =>
      if rc < 0 then some (iBytes, rd, s)
      else (rdLast ops data last rd s).map fun (rd, s) => (iBytes, rd, s)
  | chunk :: chunks, rd, iBytes, s =>
    (rdTurn data rd s).bind fun (rc, rd, s) =>
      if rc < 0 then some (iBytes, rd, s)
      else hpRdReadLoop last chunks (rdGot rd chunk) (iBytes + chunk.length)
        (ops.note (.got chunk) s)

/-- `hp_rd_read` with its callbacks over any outer state. -/
def hpRdRead (rd : HpRd) (call : RdCall) (s : σ) : Option (Nat × HpRd × σ) :=
  match ops.data with
  | none => some (0, rd, s)
  | some data => hpRdReadLoop ops data call.last call.chunks rd 0 s

end

/-- The loop of `hp_rd_read` as its turns see it: `I` at its head, `J` before each `read()`,
`N` after a turn that asked to close, `E` after the result that ends the call. -/
theorem hpRdReadLoop_rule {σ : Type} {ops : RdOps σ}
    {data : List Byte → σ → Option (Int × List Byte × σ)} {last : RdEnd}
    {I J N E : HpRd → σ → Prop}
    (hturn : ∀ rd s rc rd' s', I rd s → rdTurn data rd s = some (rc, rd', s') →
      if rc < 0 then N rd' s' else J rd' s')
    (hgot : ∀ rd s chunk, J rd s → I (rdGot rd chunk) (ops.note (.got chunk) s))
    (hlast : ∀ rd s rd' s', J rd s → rdLast ops data last rd s = some (rd', s') → E rd' s') :
    ∀ (chunks : List (List Byte)) (rd : HpRd) (n : Nat) (s : σ) {n' : Nat} {rd' : HpRd} {s' : σ},
      hpRdReadLoop ops data last chunks rd n s = some (n', rd', s') → I rd s →
      N rd' s' ∨ E rd' s' := by
  intro chunks
  induction chunks with
  | nil =>
    intro rd n s n' rd' s' h hs
    simp only [hpRdReadLoop, Option.bind_eq_some_iff] at h
    obtain ⟨⟨rc, rd₁, s₁⟩, hrun, hrest⟩ := h
    have hafter := hturn _ _ _ _ _ hs hrun
    by_cases hneg : rc < 0
    · simp only [hneg, ↓reduceIte, Option.some.injEq, Prod.mk.injEq] at hrest hafter
      obtain ⟨-, rfl, rfl⟩ := hrest
      exact .inl hafter
    · simp only [hneg, ↓reduceIte, Option.map_eq_some_iff] at hrest hafter
      obtain ⟨⟨rd₂, s₂⟩, hend, heq⟩ := hrest
      cases heq
      exact .inr (hlast _ _ _ _ hafter hend)
  | cons chunk chunks ih =>
    intro rd n s n' rd' s' h hs
    simp only [hpRdReadLoop, Option.bind_eq_some_iff] at h
    obtain ⟨⟨rc, rd₁, s₁⟩, hrun, hrest⟩ := h
    have hafter := hturn _ _ _ _ _ hs hrun
    by_cases hneg : rc < 0
    · simp only [hneg, ↓reduceIte, Option.some.injEq, Prod.mk.injEq] at hrest hafter
      obtain ⟨-, rfl, rfl⟩ := hrest
      exact .inl hafter
    · simp only [hneg, ↓reduceIte] at hrest hafter
      exact ih _ _ _ hrest (hgot _ _ _ hafter)

/-- The handlers of a connection that `hp_io_t_on_data` uses. `on_parse` answers with its
result, what it leaves in the buffer and the message (`iohdr`, `body`) it found. -/
structure IoHdl (σ M : Type) where
  onParse : Option (List Byte → σ → (Int × List Byte × M) × σ)
  onDispatch : Option (M → σ → Int × σ)

section
variable {σ M : Type}

def onDataLoop (onParse : List Byte → σ → (Int × List Byte × M) × σ)
    (onDispatch : Option (M → σ → Int × σ)) :
    Nat → List Byte → σ → Option (Int × List Byte × σ)
  | 0, _, _ => none
  | fuel + 1, buf, s =>
    if buf.length > 0 then
      let ((n, buf, msg), s) := onParse buf s
      if n < 0 then some (n, [], s)
      else if n > 0 then
        match onDispatch with
        | some f =>
          let (rc, s) := f msg s
          some (rc, buf, s)
        | none => onDataLoop onParse none fuel buf s
      else some (0, buf, s)
    else some (0, buf, s)

/-- `hp_io_t_on_data`. Each parse that reports a message should take at least a byte, so
the loop has at most `*len` turns and one more to see the buffer empty. -/
def hpIoTOnData (h : IoHdl σ M) (buf : List Byte) (s : σ) : Option (Int × List Byte × σ) :=
  match h.onParse with
  | none => some (0, [], s)
  | some onParse => onDataLoop onParse h.onDispatch (buf.length + 1) buf s

theorem onDataLoop_total {onParse : List Byte → σ → (Int × List Byte × M) × σ}
    (hp : ∀ buf s, 0 < (onParse buf s).1.1 → (onParse buf s).1.2.1.length < buf.length)
    (f : Option (M → σ → Int × σ)) :
    ∀ (fuel : Nat) (buf : List Byte) (s : σ), buf.length < fuel →
      ∃ r, onDataLoop onParse f fuel buf s = some r := by
  intro fuel
  induction fuel with
  | zero => intro buf s h; omega
  | succ fuel ih =>
    intro buf s h
    simp only [onDataLoop]
    split_ifs with hbuf hneg hpos
    · exact ⟨_, rfl⟩
    · have hlt := hp buf s hpos
      cases f with
      | some f => exact ⟨_, rfl⟩
      | none => exact ih (onParse buf s).1.2.1 _ (by omega)
    · exact ⟨_, rfl⟩
    · exact ⟨_, rfl⟩

/-- A parser that takes something whenever it reports a message cannot hang the loop. -/
theorem hpIoTOnData_total {h : IoHdl σ M}
    (hp : ∀ onParse, h.onParse = some onParse →
      ∀ buf s, 0 < (onParse buf s).1.1 → (onParse buf s).1.2.1.length < buf.length)
    (buf : List Byte) (s : σ) : ∃ r, hpIoTOnData h buf s = some r := by
  unfold hpIoTOnData
  cases hparse : h.onParse with
  | none => exact ⟨_, rfl⟩
  | some onParse => exact onDataLoop_total (hp onParse hparse) _ _ _ _ (Nat.lt_succ_self _)

/-- A data call as its handlers see it: `I` while they answer with 0 or more, `N` after the
negative answer that becomes the result. -/
theorem hpIoTOnData_rule {h : IoHdl σ M} {I N : σ → Prop}
    (hparse : ∀ parse, h.onParse = some parse → ∀ buf s, I s →
      if (parse buf s).1.1 < 0 then N (parse buf s).2 else I (parse buf s).2)
    (hdispatch : ∀ f, h.onDispatch = some f → ∀ msg s, I s →
      if (f msg s).1 < 0 then N (f msg s).2 else I (f msg s).2)
    {buf buf' : List Byte} {rc : Int} {s s' : σ}
    (hrun : hpIoTOnData h buf s = some (rc, buf', s')) (hs : I s) :
    if rc < 0 then N s' else I s' := by
  have hloop : ∀ parse, h.onParse = some parse → ∀ (f : Option (M → σ → Int × σ)),
      h.onDispatch = f → ∀ (fuel : Nat) (buf : List Byte) (s : σ),
      onDataLoop parse f fuel buf s = some (rc, buf', s') → I s →
      if rc < 0 then N s' else I s' := by
    intro parse hp f hf fuel
    induction fuel with
    | zero => intro buf s hrun _; cases hrun
    | succ fuel ih =>
      intro buf s hrun hs
      have hafter := hparse parse hp buf s hs
      simp only [onDataLoop] at hrun
      split at hrun
      · split at hrun
        · next hneg =>
          cases hrun
          rw [if_pos hneg] at hafter ⊢
          exact hafter
        · next hneg =>
          rw [if_neg hneg] at hafter
          split at hrun
          · cases f with
            | none => exact ih _ _ hrun hafter
            | some f =>
              cases hrun
              exact hdispatch f hf _ _ hafter
          · cases hrun
            exact hafter
      · cases hrun
        exact hs
  unfold hpIoTOnData at hrun
  cases hp : h.onParse with
  | none =>
    rw [hp] at hrun
    cases hrun
    exact hs
  | some parse =>
    rw [hp] at hrun
    exact hloop parse hp _ rfl _ _ _ hrun hs

end

end Libhp.Io
