import Libhp.Io.Rd
import Libhp.Io.Wr
import Libhp.Lib.Related

/-!
# Reading and writing over related states

`hp_rd_read` and `hp_wr_write` treat the outer state as a black box: where the kernel and
the callbacks answer alike over two related states, both do the same and leave related
states behind.
-/
namespace Libhp.Io
open Related

section
variable {σ τ : Type} {Q : σ → τ → Prop}

/-- The data callbacks of two connections answer alike. -/
def DataAlike (Q : σ → τ → Prop) (data : List Byte → σ → Option (Int × List Byte × σ))
    (data' : List Byte → τ → Option (Int × List Byte × τ)) : Prop :=
  ∀ buf s t, Q s t → Option.Rel (Alike₂ Q) (data buf s) (data' buf t)

structure RdAlike (Q : σ → τ → Prop) (ops : RdOps σ) (ops' : RdOps τ) : Prop where
  data : Option.Rel (DataAlike Q) ops.data ops'.data
  readError : Option.Rel (fun f f' => ∀ rd err s t, Q s t → Alike Q (f rd err s) (f' rd err t))
    ops.readError ops'.readError
  note : ∀ r s t, Q s t → Q (ops.note r s) (ops'.note r t)

section
variable {ops : RdOps σ} {ops' : RdOps τ} {data : List Byte → σ → Option (Int × List Byte × σ)}
  {data' : List Byte → τ → Option (Int × List Byte × τ)} {s : σ} {t : τ}

theorem rdData_alike (hd : DataAlike Q data data') (rd : HpRd) (h : Q s t) :
    Option.Rel (Alike₂ Q) (rdData data rd s) (rdData data' rd t) := by
  unfold rdData
  split_ifs
  · apply Related.map (hd rd.iBuf s t h)
    intro ⟨rc, buf, s'⟩ ⟨rc', buf', t'⟩ ⟨hrc, hbuf, h'⟩
    cases hrc
    cases hbuf
    exact ⟨rfl, rfl, h'⟩
  · exact .some ⟨rfl, rfl, h⟩

theorem rdTurn_alike (hd : DataAlike Q data data') (rd : HpRd) (h : Q s t) :
    Option.Rel (Alike₂ Q) (rdTurn data rd s) (rdTurn data' rd t) := by
  apply Related.map (rdData_alike hd rd h)
  intro ⟨rc, rd₁, s'⟩ ⟨rc', rd₁', t'⟩ ⟨hrc, hrd, h'⟩
  cases hrc
  cases hrd
  dsimp only
  split_ifs <;> exact ⟨rfl, rfl, h'⟩

theorem rdLast_alike (ho : RdAlike Q ops ops') (hd : DataAlike Q data data') (last : RdEnd)
    (rd : HpRd) (h : Q s t) :
    Option.Rel (Alike Q) (rdLast ops data last rd s) (rdLast ops' data' last rd t) := by
  unfold rdLast
  by_cases hagain : last.again = true
  · rw [if_pos hagain, if_pos hagain]
    exact .some ⟨rfl, h⟩
  · rw [if_neg hagain, if_neg hagain]
    apply Related.map (rdData_alike hd _ (ho.note _ _ _ h))
    intro ⟨rc, rd₁, s'⟩ ⟨rc', rd₁', t'⟩ ⟨hrc, hrd, h'⟩
    cases hrd
    have herr := ho.readError
    revert herr
    cases ops.readError <;> cases ops'.readError <;> intro herr
    · exact ⟨rfl, h'⟩
    · cases herr
    · cases herr
    · cases herr with
      | some hf => exact hf _ _ _ _ h'

theorem hpRdReadLoop_alike (ho : RdAlike Q ops ops') (hd : DataAlike Q data data')
    (last : RdEnd) (chunks : List (List Byte)) (rd : HpRd) (n : Nat) (h : Q s t) :
    Option.Rel (Alike₂ Q) (hpRdReadLoop ops data last chunks rd n s)
      (hpRdReadLoop ops' data' last chunks rd n t) := by
  induction chunks generalizing rd n s t with
  | nil =>
    apply Related.bind (rdTurn_alike hd rd h)
    intro ⟨rc, rd₁, s'⟩ ⟨rc', rd₁', t'⟩ ⟨hrc, hrd, h'⟩
    cases hrc
    cases hrd
    dsimp only
    split_ifs
    · exact .some ⟨rfl, rfl, h'⟩
    · apply Related.map (rdLast_alike ho hd last rd₁ h')
      intro ⟨rd₂, s''⟩ ⟨rd₂', t''⟩ hlast
      exact ⟨rfl, hlast⟩
  | cons chunk chunks ih =>
    apply Related.bind (rdTurn_alike hd rd h)
    intro ⟨rc, rd₁, s'⟩ ⟨rc', rd₁', t'⟩ ⟨hrc, hrd, h'⟩
    cases hrc
    cases hrd
    dsimp only
    split_ifs
    · exact .some ⟨rfl, rfl, h'⟩
    · exact ih _ _ (ho.note _ _ _ h')

theorem hpRdRead_alike (ho : RdAlike Q ops ops') (rd : HpRd) (call : RdCall) (h : Q s t) :
    Option.Rel (Alike₂ Q) (hpRdRead ops rd call s) (hpRdRead ops' rd call t) := by
  have hdata := ho.data
  unfold hpRdRead
  revert hdata
  cases ops.data <;> cases ops'.data <;> intro hdata
  · exact .some ⟨rfl, rfl, h⟩
  · cases hdata
  · cases hdata
  · cases hdata with
    | some hd => exact hpRdReadLoop_alike ho hd _ _ _ _ h

end

section
variable {M : Type} {s : σ} {t : τ}

structure HdlAlike (Q : σ → τ → Prop) (hdl : IoHdl σ M) (hdl' : IoHdl τ M) : Prop where
  onParse : Option.Rel (fun f f' => ∀ buf s t, Q s t → Alike Q (f buf s) (f' buf t))
    hdl.onParse hdl'.onParse
  onDispatch : Option.Rel (fun f f' => ∀ msg s t, Q s t → Alike Q (f msg s) (f' msg t))
    hdl.onDispatch hdl'.onDispatch

theorem onDataLoop_alike {parse : List Byte → σ → (Int × List Byte × M) × σ}
    {parse' : List Byte → τ → (Int × List Byte × M) × τ}
    (hp : ∀ buf s t, Q s t → Alike Q (parse buf s) (parse' buf t))
    {f : Option (M → σ → Int × σ)} {f' : Option (M → τ → Int × τ)}
    (hf : Option.Rel (fun f f' => ∀ msg s t, Q s t → Alike Q (f msg s) (f' msg t)) f f')
    (fuel : Nat) (buf : List Byte) (h : Q s t) :
    Option.Rel (Alike₂ Q) (onDataLoop parse f fuel buf s) (onDataLoop parse' f' fuel buf t) := by
  induction fuel generalizing buf s t with
  | zero => exact .none
  | succ fuel ih =>
    have hone := hp buf s t h
    unfold onDataLoop
    revert hone
    rcases parse buf s with ⟨⟨n, rest, msg⟩, s'⟩
    rcases parse' buf t with ⟨⟨n', rest', msg'⟩, t'⟩
    rintro ⟨hans, h'⟩
    cases hans
    dsimp only at h' ⊢
    split_ifs
    · exact .some ⟨rfl, rfl, h'⟩
    · cases hf with
      | none => exact ih rest h'
      | some hf =>
        obtain ⟨hrc, h''⟩ := hf msg s' t' h'
        exact .some ⟨hrc, rfl, h''⟩
    · exact .some ⟨rfl, rfl, h'⟩
    · exact .some ⟨rfl, rfl, h⟩

theorem hpIoTOnData_alike {hdl : IoHdl σ M} {hdl' : IoHdl τ M} (hh : HdlAlike Q hdl hdl') :
    DataAlike Q (hpIoTOnData hdl) (hpIoTOnData hdl') := by
  intro buf s t h
  have hparse := hh.onParse
  unfold hpIoTOnData
  revert hparse
  cases hdl.onParse <;> cases hdl'.onParse <;> intro hparse
  · exact .some ⟨rfl, rfl, h⟩
  · cases hparse
  · cases hparse
  · cases hparse with
    | some hp => exact onDataLoop_alike hp hh.onDispatch _ _ h

end

structure WrAlike (Q : σ → τ → Prop) (ops : WrOps σ) (ops' : WrOps τ) : Prop where
  writev : ∀ vec s t, Q s t → Alike Q (ops.writev vec s) (ops'.writev vec t)
  free : ∀ f p s t, Q s t → Q (ops.free f p s) (ops'.free f p t)
  writeError : Option.Rel (fun f f' => ∀ wr err s t, Q s t → Alike Q (f wr err s) (f' wr err t))
    ops.writeError ops'.writeError
  touch : ∀ s t, Q s t → Q (ops.touch s) (ops'.touch t)

section
variable {ops : WrOps σ} {ops' : WrOps τ} {s : σ} {t : τ}

theorem freeItems_alike (ho : WrAlike Q ops ops') (items : List HpUioItem) (h : Q s t) :
    Q (freeItems ops items s) (freeItems ops' items t) := by
  induction items generalizing s t with
  | nil => exact h
  | cons item items ih =>
    apply ih
    unfold freeItem
    cases item.free with
    | none => exact h
    | some f =>
      dsimp only
      split_ifs
      · exact h
      · exact ho.free _ _ _ _ h

theorem hpUioWriteLoop_alike (ho : WrAlike Q ops ops') (bytes fuel nwrite n : Nat)
    (vec : List Iovec) (h : Q s t) :
    Option.Rel (Alike Q) (hpUioWriteLoop ops.writev bytes fuel nwrite n vec s)
      (hpUioWriteLoop ops'.writev bytes fuel nwrite n vec t) := by
  induction fuel generalizing nwrite n vec s t with
  | zero => exact .none
  | succ fuel ih =>
    have hone := ho.writev (vec.drop n) s t h
    unfold hpUioWriteLoop
    revert hone
    rcases ops.writev (vec.drop n) s with ⟨w, s'⟩
    rcases ops'.writev (vec.drop n) t with ⟨w', t'⟩
    rintro ⟨hans, h'⟩
    cases hans
    dsimp only at h' ⊢
    split_ifs
    · exact .some ⟨rfl, h'⟩
    · exact .some ⟨rfl, h'⟩
    · exact ih _ _ _ h'

theorem hpUioWrite_alike (ho : WrAlike Q ops ops') (vec : List Iovec) (bytes : Nat) (h : Q s t) :
    Option.Rel (Alike Q) (hpUioWrite ops.writev vec bytes s) (hpUioWrite ops'.writev vec bytes t) :=
  hpUioWriteLoop_alike ho bytes bytes 0 0 vec h

/-- `wr->write_error(wr, err, arg)`, if it is set. -/
theorem writeError_alike (ho : WrAlike Q ops ops') (wr : HpWr) (err : Int) (h : Q s t) :
    Alike Q (match ops.writeError with | some f => f wr err s | none => (wr, s))
      (match ops'.writeError with | some f => f wr err t | none => (wr, t)) := by
  have herr := ho.writeError
  revert herr
  cases ops.writeError <;> cases ops'.writeError <;> intro herr
  · exact ⟨rfl, h⟩
  · cases herr
  · cases herr
  · cases herr with
    | some hf => exact hf _ _ _ _ h

theorem hpWrWriteLoop_alike (ho : WrAlike Q ops ops') (iovMax fuel : Nat) (wr : HpWr) (n : Nat)
    (h : Q s t) :
    Option.Rel (Alike₂ Q) (hpWrWriteLoop ops iovMax fuel wr n s)
      (hpWrWriteLoop ops' iovMax fuel wr n t) := by
  induction fuel generalizing wr n s t with
  | zero => exact .none
  | succ fuel ih =>
    unfold hpWrWriteLoop
    by_cases hempty : wr.oItemsLen = 0
    · rw [if_pos hempty, if_pos hempty]
      exact .some ⟨rfl, rfl, h⟩
    · rw [if_neg hempty, if_neg hempty]
      dsimp only
      split_ifs with hW
      · exact ih _ _ (freeItems_alike ho _ h)
      · have hone := hpUioWrite_alike ho ((wr.oItems.take (min iovMax wr.oItemsLen)).map (·.vec))
          (iovecTotalBytes ((wr.oItems.take (min iovMax wr.oItemsLen)).map (·.vec))) h
        generalize hpUioWrite ops.writev _ _ s = a at hone ⊢
        generalize hpUioWrite ops'.writev _ _ t = b at hone ⊢
        cases hone with
        | none => exact .none
        | @some a b hab =>
          obtain ⟨u, s₁⟩ := a
          obtain ⟨u', t₁⟩ := b
          obtain ⟨hu, h₁⟩ := hab
          cases hu
          have hfreed := freeItems_alike ho
            ((storeBack wr (min iovMax wr.oItemsLen) u).oItems.take u.n) h₁
          dsimp only [hpEtioDelN]
          split_ifs
          · exact ih _ _ hfreed
          · exact .some ⟨rfl, rfl, hfreed⟩
          · obtain ⟨hwr, h₂⟩ := writeError_alike ho
              (hpEtioDelN ops (storeBack wr (min iovMax wr.oItemsLen) u) u.n s₁).1 u.err hfreed
            exact .some ⟨rfl, congrArg (fun wr : HpWr => { wr with err := u.err }) hwr,
              ho.touch _ _ h₂⟩

theorem hpWrWrite_alike (ho : WrAlike Q ops ops') (iovMax : Nat) (wr : HpWr) (h : Q s t) :
    Option.Rel (Alike₂ Q) (hpWrWrite ops iovMax wr s) (hpWrWrite ops' iovMax wr t) := by
  unfold hpWrWrite
  split_ifs
  · exact .some ⟨rfl, rfl, h⟩
  · exact hpWrWriteLoop_alike ho _ _ _ _ h

end

end
end Libhp.Io
