import Libhp.Io.WrPlain

/-!
# The capacity of the write queue

`hp_wr_add` doubles the array of items when at most three slots are free and halves it when the
queue leaves half of it and two slots more unused; `hp_wr_write` never changes it. Here the
write results are arbitrary, and both builds of `hp_wr_write` are followed.
-/
namespace Libhp.Io

inductive WrBuild where
  | uio
  | plain
  deriving DecidableEq, Repr

/-- What a run meets outside: any write results, any free callbacks, and a `write_error`
callback that leaves the `hp_wr` it is given alone. -/
structure WrEnv (σ : Type) where
  ops : WrOps σ
  write : Iovec → σ → SysRes × σ
  iovMax : Nat
  quiet : ∀ f, ops.writeError = some f → ∀ wr err s, (f wr err s).1 = wr

section
variable {σ : Type}

def WrEnv.hpWrWrite (env : WrEnv σ) : WrBuild → HpWr → σ → Option (Nat × HpWr × σ)
  | .uio, wr, s => Io.hpWrWrite env.ops env.iovMax wr s
  | .plain, wr, s => hpWrWritePlain env.write env.ops env.iovMax wr s

def WrEnv.call (env : WrEnv σ) (build : WrBuild) : WrOp → HpWr × σ → Option (HpWr × σ)
  | .add a, (wr, s) => some ((hpWrAdd wr a.buf a.free a.ptr a.fresh).2, s)
  | .write, (wr, s) => (env.hpWrWrite build wr s).map Prod.snd

def WrEnv.run (env : WrEnv σ) (build : WrBuild) : List WrOp → HpWr × σ → Option (HpWr × σ)
  | [], st => some st
  | op :: ops, st => (env.call build op st).bind (env.run build ops)

end

/-- What `hp_wr_init` makes of its argument. -/
def initLen (n : Int) : Nat := if n ≤ 0 then 8 else n.toNat

/-- The array at a moment of a run: the queue lies inside it, its capacity is the initial one
doubled some number of times, and whatever is added next is stored inside the array as it is
then, behind every item queued now. -/
structure HpWr.Roomy (init : Nat) (wr : HpWr) : Prop where
  slots : wr.oItems.length = wr.O_ITEMS_LEN
  len : wr.oItemsLen ≤ wr.O_ITEMS_LEN
  pow : ∃ k, wr.O_ITEMS_LEN = init * 2 ^ k
  least : init ≤ wr.O_ITEMS_LEN
  inside : (wrGrow wr).oItemsLen < (wrGrow wr).O_ITEMS_LEN
  realloc : (wrGrow wr).oItems.length = (wrGrow wr).O_ITEMS_LEN
  kept : (wrGrow wr).queue = wr.queue
  stored : ∀ a : WrAdd, a.taken = true →
    (hpWrAdd wr a.buf a.free a.ptr a.fresh).2.queue = wr.queue ++ [a.item]

theorem HpWr.Ok.roomy {wr : HpWr} (h : wr.Ok) : wr.Roomy wr.O_ITEMS_INIT_LEN := by
  obtain ⟨hok, hq, hl, -, hroom⟩ := wrGrow_spec h
  obtain ⟨k, hk⟩ := h.pow
  constructor
  · exact h.slots
  · exact h.len
  · exact ⟨k, hk⟩
  · rw [hk]
    exact Nat.le_mul_of_pos_right _ (Nat.two_pow_pos k)
  · rw [hl]
    exact hroom
  · exact hok.slots
  · exact hq
  · intro a ht
    exact (hpWrAdd_spec h a.buf a.free a.ptr a.fresh (by simpa [WrAdd.taken] using ht)).2.1

/-- The array keeps its capacity while the queue gets shorter. -/
structure Drained (wr wr' : HpWr) : Prop where
  ok : wr'.Ok
  cap : wr'.O_ITEMS_LEN = wr.O_ITEMS_LEN
  init : wr'.O_ITEMS_INIT_LEN = wr.O_ITEMS_INIT_LEN
  len : wr'.oItemsLen ≤ wr.oItemsLen

theorem Drained.refl {wr : HpWr} (h : wr.Ok) : Drained wr wr := ⟨h, rfl, rfl, Nat.le_refl _⟩

theorem Drained.trans {wr wr' wr'' : HpWr} (h : Drained wr wr') (h' : Drained wr' wr'') :
    Drained wr wr'' :=
  ⟨h'.ok, h'.cap.trans h.cap, h'.init.trans h.init, Nat.le_trans h'.len h.len⟩

theorem Drained.setErr {wr wr' : HpWr} (h : Drained wr wr') (err : Int) :
    Drained wr { wr' with err := err } :=
  ⟨⟨h.ok.slots, h.ok.init, h.ok.pow, h.ok.len, h.ok.vecs⟩, h.cap, h.init, h.len⟩

theorem Drained.setBytes {wr wr' : HpWr} (h : Drained wr wr') (n : Nat) :
    Drained wr { wr' with oBytes := n } :=
  ⟨⟨h.ok.slots, h.ok.init, h.ok.pow, h.ok.len, h.ok.vecs⟩, h.cap, h.init, h.len⟩

theorem Drained.setVec {wr wr' : HpWr} (h : Drained wr wr') (n : Nat) {v : Iovec} (hv : v.Fits) :
    Drained wr (setVec wr' n v) :=
  ⟨setVec_ok h.ok n hv, h.cap, h.init, h.len⟩

theorem Drained.delN {σ : Type} {wr wr' : HpWr} (h : Drained wr wr') (ops : WrOps σ) {n : Nat}
    (hn : n ≤ wr'.oItemsLen) (s : σ) : Drained wr (hpEtioDelN ops wr' n s).1 :=
  ⟨hpEtioDelN_ok ops h.ok hn s, h.cap, h.init, Nat.le_trans (Nat.sub_le _ _) h.len⟩

/-- `before_writev` never leaves the vectors it is given, whatever count it is told. -/
theorem beforeWritevLoop_inside (nwrite : Nat) : ∀ (vec : List Iovec) (r i : Nat), r ≤ nwrite →
    (∀ v ∈ vec, v.Fits) →
    (beforeWritevLoop nwrite r i vec).1.length = vec.length ∧
      (∀ v ∈ (beforeWritevLoop nwrite r i vec).1, v.Fits) ∧
      (beforeWritevLoop nwrite r i vec).2.getD i ≤ i + vec.length := by
  intro vec
  induction vec with
  | nil =>
    intro r i hr hfit
    exact ⟨rfl, by simp [beforeWritevLoop], Nat.le_refl _⟩
  | cons v vec ih =>
    intro r i hr hfit
    have hv : v.Fits := hfit v (by simp)
    by_cases hstop : nwrite < r + v.iovLen
    · simp only [beforeWritevLoop, hstop, ↓reduceIte, List.length_cons, List.mem_cons,
        Option.getD_some, true_and]
      refine ⟨?_, by omega⟩
      rintro u (rfl | hu)
      · exact Iovec.trim_fits hv (by omega)
      · exact hfit u (by simp [hu])
    · obtain ⟨hlen, hfits, hn⟩ :=
        ih (r + v.iovLen) (i + 1) (by omega) (fun u hu => hfit u (by simp [hu]))
      simp only [beforeWritevLoop, hstop, ↓reduceIte, List.length_cons, List.mem_cons]
      refine ⟨by rw [hlen], ?_, ?_⟩
      · rintro u (rfl | hu)
        · exact hv
        · exact hfits u hu
      · cases hres : (beforeWritevLoop nwrite (r + v.iovLen) (i + 1) vec).2 with
        | none => simp only [Option.getD_none]; omega
        | some j =>
          rw [hres] at hn
          simp only [Option.getD_some] at hn ⊢
          omega

theorem beforeWritev_inside {vec : List Iovec} (hfit : ∀ v ∈ vec, v.Fits) (nwrite : Nat) {n : Nat}
    (hn : n ≤ vec.length) :
    (beforeWritev vec nwrite n).1.length = vec.length ∧
      (∀ v ∈ (beforeWritev vec nwrite n).1, v.Fits) ∧
      (beforeWritev vec nwrite n).2 ≤ vec.length := by
  obtain ⟨hlen, hfits, hend⟩ := beforeWritevLoop_inside nwrite (vec.drop n) 0 n (Nat.zero_le _)
    fun v hv => hfit v (List.mem_of_mem_drop hv)
  rw [List.length_drop] at hlen hend
  simp only [beforeWritev]
  refine ⟨?_, ?_, by omega⟩
  · rw [List.length_append, List.length_take, hlen]
    omega
  · intro v hv
    rcases List.mem_append.mp hv with hv | hv
    · exact hfit v (List.mem_of_mem_take hv)
    · exact hfits v hv

theorem hpUioWriteLoop_inside {σ : Type} {writev : List Iovec → σ → SysRes × σ} {bytes : Nat} :
    ∀ {fuel nwrite n : Nat} {vec : List Iovec} {s s' : σ} {u : UioRes},
      hpUioWriteLoop writev bytes fuel nwrite n vec s = some (u, s') → n ≤ vec.length →
      (∀ v ∈ vec, v.Fits) → u.vec.length = vec.length ∧ (∀ v ∈ u.vec, v.Fits) ∧
        u.n ≤ vec.length := by
  intro fuel
  induction fuel with
  | zero => intro nwrite n vec s s' u h _ _; simp [hpUioWriteLoop] at h
  | succ fuel ih =>
    intro nwrite n vec s s' u h hn hfit
    simp only [hpUioWriteLoop] at h
    split at h
    · cases h
      exact ⟨rfl, hfit, hn⟩
    · split at h
      · cases h
        exact ⟨rfl, hfit, Nat.le_refl _⟩
      · obtain ⟨hlen, hfits, hle⟩ := beforeWritev_inside hfit (writev (vec.drop n) s).1.ret.toNat hn
        have hrest := ih h (by omega) hfits
        rwa [hlen] at hrest

theorem storeBack_drained {wr : HpWr} (h : wr.Ok) {m : Nat} {u : UioRes}
    (hlen : u.vec.length = m) (hfit : ∀ v ∈ u.vec, v.Fits) : Drained wr (storeBack wr m u) := by
  have hbytes := (Drained.refl h).setBytes (wr.oBytes + u.nwrite)
  by_cases hn : u.n < m
  · rw [storeBack, if_pos hn]
    apply hbytes.setVec
    rw [List.getD_eq_getElem?_getD, List.getElem?_eq_getElem (by omega)]
    exact hfit _ (List.getElem_mem _)
  · rw [storeBack, if_neg hn]
    exact hbytes

section
variable {σ : Type}

/-- What the loops do after a write that failed for good. -/
theorem Drained.writeError (env : WrEnv σ) {wr wr₁ wr' : HpWr} {err : Int} {o n : Nat} {s s' : σ}
    (hdel : Drained wr wr₁)
    (h : (let r := match env.ops.writeError with
          | some f => f wr₁ err s
          | none => (wr₁, s)
        some (o, { r.1 with err := err }, env.ops.touch r.2)) = some (n, wr', s')) :
    Drained wr wr' := by
  cases hf : env.ops.writeError with
  | none =>
    rw [hf] at h
    cases h
    exact hdel.setErr _
  | some f =>
    rw [hf] at h
    cases h
    rw [env.quiet f hf]
    exact hdel.setErr _

/-- The loop of the `writev` build. -/
theorem hpWrWriteLoop_drained (env : WrEnv σ) :
    ∀ {fuel : Nat} {wr : HpWr} {o : Nat} {s : σ} {n : Nat} {wr' : HpWr} {s' : σ},
      hpWrWriteLoop env.ops env.iovMax fuel wr o s = some (n, wr', s') → wr.Ok →
      Drained wr wr' := by
  intro fuel
  induction fuel with
  | zero => intro wr o s n wr' s' h _; cases h
  | succ fuel ih =>
    intro wr o s n wr' s' h hok
    simp only [hpWrWriteLoop] at h
    split at h
    · cases h
      exact .refl hok
    · set m := min env.iovMax wr.oItemsLen with hm
      have hmle : m ≤ wr.oItemsLen := Nat.min_le_right _ _
      have hvec : (wr.oItems.take m).map (·.vec) = (wr.queue.take m).map (·.vec) := by
        rw [HpWr.queue, List.take_take, Nat.min_eq_left hmle]
      have hlen : ((wr.oItems.take m).map (·.vec)).length = m := by
        rw [List.length_map, List.length_take, hok.slots]
        exact Nat.min_eq_left (Nat.le_trans hmle hok.len)
      have hfit : ∀ v ∈ (wr.oItems.take m).map (·.vec), v.Fits := by
        rw [hvec]
        intro v hv
        obtain ⟨item, hi, rfl⟩ := List.mem_map.mp hv
        exact hok.vecs item (List.mem_of_mem_take hi)
      split at h
      · have hdel := (Drained.refl hok).delN env.ops hmle s
        exact hdel.trans (ih h hdel.ok)
      · split at h
        · cases h
        · next u s₁ hu =>
          obtain ⟨hulen, hufit, hun⟩ := hpUioWriteLoop_inside hu (Nat.zero_le _) hfit
          have hstore := storeBack_drained hok (hulen.trans hlen) hufit
          have hul : u.n ≤ (storeBack wr m u).oItemsLen := by
            have hsame : (storeBack wr m u).oItemsLen = wr.oItemsLen := by
              unfold storeBack
              split <;> rfl
            omega
          have hdel := hstore.delN env.ops hul s₁
          split at h
          · exact hdel.trans (ih h hdel.ok)
          · split at h
            · cases h
              exact hdel
            · exact hdel.writeError env h

theorem hpWrDoWriteLoop_fits {write : Iovec → σ → SysRes × σ} :
    ∀ {fuel nwrite : Nat} {v : Iovec} {s : σ} {d : WriteRes} {s' : σ},
      hpWrDoWriteLoop write fuel nwrite v s = some (d, s') → v.Fits → d.vec.Fits := by
  intro fuel
  induction fuel with
  | zero => intro nwrite v s d s' h _; cases h
  | succ fuel ih =>
    intro nwrite v s d s' h hfit
    simp only [hpWrDoWriteLoop] at h
    split at h
    · cases h
      exact hfit
    · split at h
      · cases h
        exact hfit
      · exact ih h (advance_fits hfit _)

/-- The loop over the items counts at most the items it is given. -/
theorem hpWrItemsLoop_drained {write : Iovec → σ → SysRes × σ} {wr : HpWr} :
    ∀ {left i : Nat} {r r' : ItemsRes} {s s' : σ},
      hpWrItemsLoop write left i r s = some (r', s') → Drained wr r.wr →
      r.wr.oItemsLen = wr.oItemsLen → i + left ≤ wr.oItemsLen →
      Drained wr r'.wr ∧ r'.wr.oItemsLen = wr.oItemsLen ∧ r'.n ≤ r.n + left := by
  intro left
  induction left with
  | zero =>
    intro i r r' s s' h hr hsame hi
    cases h
    exact ⟨hr, hsame, Nat.le_refl _⟩
  | succ left ih =>
    intro i r r' s s' h hr hsame hi
    have hslot : i < r.wr.oItems.length := by
      have := hr.ok.len
      rw [hr.ok.slots]
      omega
    have hqueue : i < r.wr.queue.length := by
      rw [hr.ok.queue_length]
      omega
    have hfit : (r.wr.oItems.getD i default).vec.Fits := by
      have hmem : r.wr.queue[i] ∈ r.wr.queue := List.getElem_mem hqueue
      rw [List.getD_eq_getElem?_getD, List.getElem?_eq_getElem hslot, Option.getD_some]
      simpa only [HpWr.queue, List.getElem_take] using hr.ok.vecs _ hmem
    simp only [hpWrItemsLoop, Option.bind_eq_some_iff] at h
    obtain ⟨⟨d, s₁⟩, hd, h⟩ := h
    have hdfit : d.vec.Fits := hpWrDoWriteLoop_fits hd hfit
    have hbytes := hr.setBytes (r.wr.oBytes + d.nwrite)
    dsimp only at h
    split at h
    · cases h
      exact ⟨hbytes.setVec i hdfit, hsame, Nat.le_add_right _ _⟩
    · obtain ⟨hr', hsame', hn⟩ := ih h hbytes hsame (by omega)
      exact ⟨hr', hsame', by dsimp only at hn; omega⟩

/-- The loop of the build without `writev`. -/
theorem hpWrWritePlainLoop_drained (env : WrEnv σ) :
    ∀ {fuel : Nat} {wr : HpWr} {o : Nat} {s : σ} {n : Nat} {wr' : HpWr} {s' : σ},
      hpWrWritePlainLoop env.write env.ops env.iovMax fuel wr o s = some (n, wr', s') → wr.Ok →
      Drained wr wr' := by
  intro fuel
  induction fuel with
  | zero => intro wr o s n wr' s' h _; cases h
  | succ fuel ih =>
    intro wr o s n wr' s' h hok
    simp only [hpWrWritePlainLoop] at h
    split at h
    · cases h
      exact .refl hok
    · obtain ⟨⟨r, s₁⟩, hitems, h⟩ := Option.bind_eq_some_iff.mp h
      have hmle : 0 + min env.iovMax wr.oItemsLen ≤ wr.oItemsLen := by omega
      obtain ⟨hr, hsame, hn⟩ := hpWrItemsLoop_drained hitems (Drained.refl hok) rfl hmle
      have hcount : r.n ≤ r.wr.oItemsLen := hsame ▸ Nat.le_trans hn hmle
      have hdel := hr.delN env.ops hcount s₁
      dsimp only at h
      split at h
      · exact hdel.trans (ih h hdel.ok)
      · split at h
        · cases h
          exact hdel
        · exact hdel.writeError env h

theorem hpWrWrite_drained (env : WrEnv σ) (build : WrBuild) {wr : HpWr} {s : σ} {n : Nat}
    {wr' : HpWr} {s' : σ} (h : env.hpWrWrite build wr s = some (n, wr', s')) (hok : wr.Ok) :
    Drained wr wr' := by
  cases build with
  | uio =>
    simp only [WrEnv.hpWrWrite, Io.hpWrWrite] at h
    split at h
    · cases h
      exact .refl hok
    · exact hpWrWriteLoop_drained env h hok
  | plain =>
    simp only [WrEnv.hpWrWrite, hpWrWritePlain] at h
    split at h
    · cases h
      exact .refl hok
    · exact hpWrWritePlainLoop_drained env h hok

theorem wrGrow_init (wr : HpWr) : (wrGrow wr).O_ITEMS_INIT_LEN = wr.O_ITEMS_INIT_LEN := by
  unfold wrGrow
  split
  · rfl
  · split <;> rfl

theorem call_ok (env : WrEnv σ) (build : WrBuild) {op : WrOp} {wr wr' : HpWr} {s s' : σ}
    (h : env.call build op (wr, s) = some (wr', s')) (hok : wr.Ok) :
    wr'.Ok ∧ wr'.O_ITEMS_INIT_LEN = wr.O_ITEMS_INIT_LEN := by
  cases op with
  | add a =>
    cases h
    by_cases hz : a.buf.addr = 0
    · rw [hpWrAdd, if_pos hz]
      exact ⟨hok, rfl⟩
    · refine ⟨(hpWrAdd_spec hok a.buf a.free a.ptr a.fresh hz).1, ?_⟩
      simp only [hpWrAdd, if_neg hz]
      exact wrGrow_init wr
  | write =>
    obtain ⟨⟨n, st⟩, hw, hst⟩ := Option.map_eq_some_iff.mp h
    cases hst
    have hd := hpWrWrite_drained env build hw hok
    exact ⟨hd.ok, hd.init⟩

theorem run_ok (env : WrEnv σ) (build : WrBuild) :
    ∀ {calls : List WrOp} {wr wr' : HpWr} {s s' : σ},
      env.run build calls (wr, s) = some (wr', s') → wr.Ok →
      wr'.Ok ∧ wr'.O_ITEMS_INIT_LEN = wr.O_ITEMS_INIT_LEN := by
  intro calls
  induction calls with
  | nil =>
    intro wr wr' s s' h hok
    cases h
    exact ⟨hok, rfl⟩
  | cons op calls ih =>
    intro wr wr' s s' h hok
    obtain ⟨⟨wr₁, s₁⟩, hop, hrest⟩ := Option.bind_eq_some_iff.mp h
    obtain ⟨hok₁, hinit₁⟩ := call_ok env build hop hok
    obtain ⟨hok', hinit'⟩ := ih hrest hok₁
    exact ⟨hok', hinit'.trans hinit₁⟩

end

/-- The kernel of the byte stream is one of these environments. -/
def WrKernel.env (k : WrKernel) (onError : Bool) : WrEnv WrWorld where
  ops := k.ops onError
  write v s := k.writev [v] s
  iovMax := k.iovMax
  quiet := by
    intro f hf wr err s
    cases onError with
    | false => cases hf
    | true => cases hf; rfl

theorem wrRun_eq (k : WrKernel) (onError : Bool) (calls : List WrOp) (st : HpWr × WrWorld) :
    wrRun k onError calls st = (k.env onError).run .uio calls st := by
  induction calls generalizing st with
  | nil => rfl
  | cons op calls ih =>
    cases op with
    | add a => exact ih _
    | write =>
      simp only [wrRun, wrOp, WrEnv.run, WrEnv.call, WrEnv.hpWrWrite, WrKernel.env]
      cases hpWrWrite (k.ops onError) k.iovMax st.1 st.2 with
      | none => rfl
      | some r => exact ih _

/-- In either build, after any calls of `hp_wr_add` and `hp_wr_write` from `hp_wr_init` on,
whatever the writes return, the array has room; against a kernel that answers as documented
every such run returns. -/
theorem wr_capacity (n : Int) (calls : List WrOp) :
    (∀ (σ : Type) (env : WrEnv σ) (build : WrBuild) (s : σ) (wr : HpWr) (s' : σ),
      env.run build calls (hpWrInit n, s) = some (wr, s') → wr.Roomy (initLen n)) ∧
    ∀ (k : WrKernel) (onError : Bool), ∃ wr s',
      (k.env onError).run .uio calls (hpWrInit n, ⟨0, []⟩) = some (wr, s') ∧
        wr.Roomy (initLen n) := by
  have hroomy : ∀ (σ : Type) (env : WrEnv σ) (build : WrBuild) (s : σ) (wr : HpWr) (s' : σ),
      env.run build calls (hpWrInit n, s) = some (wr, s') → wr.Roomy (initLen n) := by
    intro σ env build s wr s' h
    obtain ⟨hok, hinit⟩ := run_ok env build h (hpWrInit_ok n)
    have hroom := hok.roomy
    rwa [hinit] at hroom
  refine ⟨hroomy, fun k onError => ?_⟩
  obtain ⟨wr, s', hrun, -⟩ := wrRun_inv k onError calls [] _ ⟨0, []⟩ (wrInv_init n)
  rw [wrRun_eq] at hrun
  exact ⟨wr, s', hrun, hroomy _ _ _ _ _ _ hrun⟩

-- The capacities that the repository's own test checks: 8 doubles at the sixth item.
example :
    let wr := (List.range 6).foldl
      (fun wr i => (hpWrAdd wr ⟨1, [], 0, Nat.le_refl _⟩ .null i 0).2) (hpWrInit 8)
    wr.O_ITEMS_LEN = 16 := by decide

end Libhp.Io
