import Libhp.Io.IoT
import Libhp.Io.Relate

/-!
# The same connections over two registries

What `hp_io_t.cpp` does to a connection does not depend on the registry it is in: from two
worlds with the same connections, the same functions have the same effects on them.
-/
namespace Libhp.Io
open Libhp.Ev (HpPolld EPOLLIN EPOLLOUT EPOLLERR)
open Related

/-- The entry is an effect on a connection, and not only a use of its fields. -/
def IoEv.effect : IoEv → Bool
  | read .. | write .. | answer .. | rm .. | close .. | delete .. => true
  | call _ | access _ | test .. => false

def IoWorld.effects {R : Type} (w : IoWorld R) : List IoEv := w.log.filter IoEv.effect

structure SameConns {R R' : Type} (w : IoWorld R) (w' : IoWorld R') : Prop where
  ios : w.ios = w'.ios
  next : w.next = w'.next
  tick : w.tick = w'.tick
  effects : w.effects = w'.effects

/-- The assertion of the registry's add does not fail. -/
def AddsGo {R : Type} (ops : RegOps R) (env : IoEnv) : Prop :=
  ∀ t r fd events cb hint, (ops.add (env.ctl t) r fd events cb hint).isSome = true

section
variable {R R' : Type} {w : IoWorld R} {w' : IoWorld R'}

@[simp] theorem effects_note (w : IoWorld R) (e : IoEv) :
    (w.note e).effects = w.effects ++ if e.effect then [e] else [] := by
  cases he : e.effect <;> simp [IoWorld.effects, IoWorld.note, List.filter_append, he]

theorem effect_of_deletes {p : Ptr} {e : IoEv} (h : e.deletes p = true) : e.effect = true := by
  cases e with
  | delete q err errstr => rfl
  | _ => cases h

namespace SameConns

theorem refl (w : IoWorld R) : SameConns w w := ⟨rfl, rfl, rfl, rfl⟩

theorem symm (h : SameConns w w') : SameConns w' w :=
  ⟨h.ios.symm, h.next.symm, h.tick.symm, h.effects.symm⟩

theorem trans {R'' : Type} {w'' : IoWorld R''} (h : SameConns w w') (h' : SameConns w' w'') :
    SameConns w w'' :=
  ⟨h.ios.trans h'.ios, h.next.trans h'.next, h.tick.trans h'.tick, h.effects.trans h'.effects⟩

theorem note (h : SameConns w w') (e : IoEv) : SameConns (w.note e) (w'.note e) :=
  ⟨h.ios, h.next, h.tick, by rw [effects_note, effects_note, h.effects]⟩

theorem noteLeft (h : SameConns w w') {e : IoEv} (he : e.effect = false) :
    SameConns (w.note e) w' :=
  ⟨h.ios, h.next, h.tick, by simp [he, h.effects]⟩

theorem step (h : SameConns w w') : SameConns w.step w'.step :=
  ⟨h.ios, h.next, congrArg (· + 1) h.tick, h.effects⟩

theorem setIo (h : SameConns w w') (p : Ptr) (io : HpIoT) :
    SameConns (w.setIo p io) (w'.setIo p io) := by
  refine ⟨?_, h.next, h.tick, h.effects⟩
  funext q
  simp only [IoWorld.setIo, h.ios]

theorem setRd (h : SameConns w w') (p : Ptr) (rd : HpRd) :
    SameConns (w.setRd p rd) (w'.setRd p rd) := by
  unfold IoWorld.setRd
  rw [h.ios]
  split
  · exact h.setIo p _
  · exact h

theorem setWr (h : SameConns w w') (p : Ptr) (wr : HpWr) :
    SameConns (w.setWr p wr) (w'.setWr p wr) := by
  unfold IoWorld.setWr
  rw [h.ios]
  split
  · exact h.setIo p _
  · exact h

theorem addIo (h : SameConns w w') (io : HpIoT) : SameConns (w.addIo io) (w'.addIo io) := by
  obtain ⟨hios, hnext, htick, heffects⟩ := h.setIo w.next io
  unfold IoWorld.addIo
  rw [← h.next]
  exact ⟨hios, rfl, htick, heffects⟩

theorem deleted_iff (h : SameConns w w') (p : Ptr) : Deleted p w.log ↔ Deleted p w'.log := by
  have hmem : ∀ {S : Type} (x : IoWorld S), Deleted p x.effects ↔ Deleted p x.log := by
    intro S x
    constructor
    · rintro ⟨e, he, hdel⟩
      exact ⟨e, List.mem_of_mem_filter he, hdel⟩
    · rintro ⟨e, he, hdel⟩
      exact ⟨e, List.mem_filter.mpr ⟨he, effect_of_deletes hdel⟩, hdel⟩
  rw [← hmem, ← hmem, h.effects]

end SameConns

section
variable {ops : RegOps R} {ops' : RegOps R'} {env : IoEnv}

theorem hpIoRegister_same (ha : AddsGo ops env) (ha' : AddsGo ops' env) (h : SameConns w w')
    (fd : Int) (events : Nat) (cb : HpPolld IoFn Bool) :
    SameConns (hpIoRegister ops env w fd events cb) (hpIoRegister ops' env w' fd events cb) := by
  obtain ⟨out, hadd⟩ := Option.isSome_iff_exists.mp (ha w.tick w.reg fd events cb cb.arg)
  obtain ⟨out', hadd'⟩ := Option.isSome_iff_exists.mp (ha' w'.tick w'.reg fd events cb cb.arg)
  unfold hpIoRegister
  rw [hadd, hadd']
  exact ⟨h.ios, h.next, congrArg (· + 1) h.tick, h.effects⟩

theorem hpIoAdd_same (ha : AddsGo ops env) (ha' : AddsGo ops' env) (h : SameConns w w')
    (fd : Int) (iohdl : HpIohdl) :
    SameConns (hpIoAdd ops env w fd iohdl) (hpIoAdd ops' env w' fd iohdl) := by
  unfold hpIoAdd
  rw [← h.next]
  by_cases hset : ¬ (iohdl.onNew ∨ iohdl.onParse)
  · rw [if_pos hset, if_pos hset]
    exact h
  · rw [if_neg hset, if_neg hset]
    split_ifs
    · exact h
    · exact hpIoRegister_same ha ha' (h.addIo _) _ _ _
    · exact hpIoRegister_same ha ha' (h.addIo _) _ _ _

theorem hpIoWrite_same (h : SameConns w w') (io : Ptr) (buf : WrBuf) (free : HpFree)
    (ptr fresh : Ptr) :
    SameConns (hpIoWrite w io buf free ptr fresh) (hpIoWrite w' io buf free ptr fresh) := by
  unfold hpIoWrite
  rw [h.ios]
  by_cases hdel : Deleted io w'.log
  · rw [if_pos ((h.deleted_iff io).mpr hdel), if_pos hdel]
    exact h
  · rw [if_neg (mt (h.deleted_iff io).mp hdel), if_neg hdel]
    split
    · exact h.setWr io _
    · exact h

variable (ops ops' env) in
theorem hpIoRm_same (h : SameConns w w') (id : Int) :
    SameConns (hpIoRm ops env w id) (hpIoRm ops' env w' id) :=
  ⟨h.ios, h.next, congrArg (· + 1) h.tick, h.effects⟩

theorem doActs_same (ha : AddsGo ops env) (ha' : AddsGo ops' env) (acts : List IoAct)
    (h : SameConns w w') : SameConns (doActs ops env w acts) (doActs ops' env w' acts) := by
  induction acts generalizing w w' with
  | nil => exact h
  | cons act acts ih =>
    apply ih
    cases act with
    | add fd iohdl => exact hpIoAdd_same ha ha' h fd iohdl
    | write io buf free ptr fresh => exact hpIoWrite_same h io buf free ptr fresh
    | rm id => exact hpIoRm_same ops ops' env h id

theorem hpIoTOnError_same (ha : AddsGo ops env) (ha' : AddsGo ops' env) (p : Ptr) (err : Int)
    (errstr : ErrStr) (h : SameConns w w') :
    SameConns (hpIoTOnError ops env p err errstr w) (hpIoTOnError ops' env p err errstr w') := by
  unfold hpIoTOnError
  rw [h.ios]
  split
  · exact h
  · next io hio =>
    have hrm := hpIoRm_same ops ops' env (h.note (.access p)) io.fd
    have hclosed := ((hrm.note (.rm p io.fd)).note (.close p io.fd)).setWr p (wrFree io.wr)
    have hdeleted := hclosed.note (.delete p err errstr)
    dsimp only
    rw [← hdeleted.tick]
    exact doActs_same ha ha' _ hdeleted.step

/-- An answer of a handler, and the calls it makes. -/
theorem answer_same (ha : AddsGo ops env) (ha' : AddsGo ops' env) (h : SameConns w w') (e : IoEv)
    (acts : List IoAct) :
    SameConns (doActs ops env (w.step.note e) acts) (doActs ops' env (w'.step.note e) acts) :=
  doActs_same ha ha' acts (h.step.note e)

theorem hdlOf_alike (ha : AddsGo ops env) (ha' : AddsGo ops' env) (p : Ptr) (iohdl : HpIohdl) :
    HdlAlike SameConns (hdlOf ops env p iohdl) (hdlOf ops' env p iohdl) := by
  constructor
  · dsimp only [hdlOf]
    split_ifs
    · refine .some fun buf s t h => ?_
      rw [← h.tick]
      exact ⟨rfl, answer_same ha ha' h _ _⟩
    · exact .none
  · dsimp only [hdlOf]
    split_ifs
    · refine .some fun msg s t h => ?_
      rw [← h.tick]
      exact ⟨rfl, answer_same ha ha' h _ _⟩
    · exact .none

theorem rdOps_alike (ha : AddsGo ops env) (ha' : AddsGo ops' env) (p : Ptr) (iohdl : HpIohdl) :
    RdAlike SameConns (rdOps ops env p iohdl) (rdOps ops' env p iohdl) := by
  constructor
  · exact .some (hpIoTOnData_alike (hdlOf_alike ha ha' p iohdl))
  · exact .some fun rd err s t h => ⟨rfl, hpIoTOnError_same ha ha' p err _ h⟩
  · exact fun r s t h => h.note (.read p r)

theorem wrOps_alike (ha : AddsGo ops env) (ha' : AddsGo ops' env) (p : Ptr) :
    WrAlike SameConns (wrOps ops env p) (wrOps ops' env p) := by
  constructor
  · intro vec s t h
    dsimp only [wrOps]
    rw [← h.tick]
    exact ⟨rfl, h.step.note _⟩
  · exact fun f q s t h => h
  · refine .some fun wr err s t h => ?_
    have herr := hpIoTOnError_same ha ha' p err (.strerror err) (h.setWr p wr)
    dsimp only
    rw [herr.ios]
    exact ⟨rfl, herr⟩
  · exact fun s t h => h.note (.access p)

theorem ioRead_same (ha : AddsGo ops env) (ha' : AddsGo ops' env) (p : Ptr)
    (h : SameConns w w') :
    Option.Rel SameConns (ioRead ops env p w) (ioRead ops' env p w') := by
  unfold ioRead
  rw [h.ios]
  cases hio : w'.ios p with
  | none => exact .none
  | some io =>
    rw [h.tick]
    refine Related.map (hpRdRead_alike (rdOps_alike ha ha' p io.iohdl) io.rd _
      (h.step.note (.access p))) ?_
    intro ⟨n, rd, x⟩ ⟨n', rd', x'⟩ ⟨_, hrd, hx⟩
    cases hrd
    exact hx.setRd p rd

theorem ioWrite_same (ha : AddsGo ops env) (ha' : AddsGo ops' env) (p : Ptr)
    (h : SameConns w w') :
    Option.Rel SameConns (ioWrite ops env p w) (ioWrite ops' env p w') := by
  unfold ioWrite
  rw [h.ios]
  cases hio : w'.ios p with
  | none => exact .none
  | some io =>
    refine Related.map (hpWrWrite_alike (wrOps_alike ha ha' p) env.iovMax io.wr
      (h.note (.access p))) ?_
    intro ⟨n, wr, x⟩ ⟨n', wr', x'⟩ ⟨_, hwr, hx⟩
    cases hwr
    exact hx.setWr p wr

end

end
end Libhp.Io
