import Libhp.Lib.Text
import Libhp.Pub.Sub

/-!
# The walk over the history reply

`hp_sub_all_cb` from the reply as hiredis builds it: arrays whose odd places are topics or
messages and whose even places are what belongs to them, flattened into a vector, sorted by
`comp` and handed to `cb`. The sort is a parameter with what C promises of `qsort`. Subscribers
that are torn down meanwhile are the business of `Libhp.Pub.Sub`.
-/
namespace Libhp.Pub.History

inductive ReplyType where
  | string
  | array
  | integer
  | nil
  | status
  | error
  deriving DecidableEq, Repr

/-- `redisReply`: `str` with its `len`, and `element`, which is NULL where there are none. -/
inductive RedisReply where
  | mk (type : ReplyType) (str : Text) (element : List RedisReply)

instance : Inhabited RedisReply := ⟨.mk .nil [] []⟩

namespace RedisReply

def type : RedisReply → ReplyType
  | .mk type _ _ => type

def str : RedisReply → Text
  | .mk _ str _ => str

def element : RedisReply → List RedisReply
  | .mk _ _ element => element

end RedisReply

/-- `sort_ctx`: the id, the message and the topic. -/
structure SortCtx where
  mid : Text
  msg : Text
  topic : Text
  deriving DecidableEq, Repr

/-- `sdscmp`: bytes, and then lengths. -/
def sdscmp : Text → Text → Int
  | [], [] => 0
  | [], _ :: _ => -1
  | _ :: _, [] => 1
  | a :: as, b :: bs => if a < b then -1 else if b < a then 1 else sdscmp as bs

def comp (a b : SortCtx) : Int := sdscmp a.mid b.mid

/-- A comparison that `qsort` may be called with. -/
structure Consistent (comp : SortCtx → SortCtx → Int) : Prop where
  total : ∀ a b, comp a b ≤ 0 ∨ comp b a ≤ 0
  trans : ∀ a b c, comp a b ≤ 0 → comp b c ≤ 0 → comp a c ≤ 0

/-- `qsort`: the same elements, in the order of the comparison; equal ones in any order. -/
structure Qsort where
  run : (SortCtx → SortCtx → Int) → List SortCtx → List SortCtx
  perm : ∀ comp xs, Consistent comp → (run comp xs).Perm xs
  sorted : ∀ comp xs, Consistent comp → (run comp xs).Pairwise fun a b => comp a b ≤ 0

/-- The rounds of `for(i = 1; i < n; i += 2)` from `i` on: the elements at `i - 1` and `i`. -/
def roundsFrom (xs : List RedisReply) : Nat → Nat → List (RedisReply × RedisReply)
  | 0, _ => []
  | fuel + 1, i =>
    if i < xs.length then (xs.getD (i - 1) default, xs.getD i default) :: roundsFrom xs fuel (i + 2)
    else []

def rounds (xs : List RedisReply) : List (RedisReply × RedisReply) := roundsFrom xs xs.length 1

/-- The inner loop: messages and ids of the topic `t`. -/
def fillTopic (t : Text) (d : RedisReply) (sortc : List SortCtx) : List SortCtx :=
  (rounds d.element).foldl (fun sortc m => sortc ++ [⟨m.2.str, m.1.str, t⟩]) sortc

/-- The outer loop: topics and their messages. -/
def fillSortc (reply : RedisReply) : List SortCtx :=
  (rounds reply.element).foldl (fun sortc e => fillTopic e.1.str e.2 sortc) []

section
variable {σ : Type}

/-- The user's `cb` on an outer state: topic, id and message. -/
abbrev Cb (σ : Type) := Text → Text → Text → σ → σ

/-- `as->s`, as long as it is not torn down, with its `cb`. -/
structure Sub (σ : Type) where
  cb : Option (Cb σ)

/-- The loop over the sorted vector. -/
def deliver (sub : Sub σ) : List SortCtx → σ → σ
  | [], s => s
  | item :: sortc, s =>
    deliver sub sortc (match sub.cb with
      | some cb => cb item.topic item.mid item.msg s
      | none => s)

def hpSubAllCb (qsort : Qsort) (sub : Option (Sub σ)) (reply : Option RedisReply) (s : σ) : σ :=
  match sub, reply with
  | some sub, some reply =>
    if reply.element = [] ∨ reply.type = .error then s
    else deliver sub (qsort.run comp (fillSortc reply)) s
  | _, _ => s

end

/-- A list whose odd places are the first components and whose even places the second. -/
def flat (pairs : List (RedisReply × RedisReply)) : List RedisReply :=
  pairs.flatMap fun p => [p.1, p.2]

@[simp] theorem flat_cons (p : RedisReply × RedisReply) (pairs : List (RedisReply × RedisReply)) :
    flat (p :: pairs) = p.1 :: p.2 :: flat pairs := rfl

theorem flat_length (pairs : List (RedisReply × RedisReply)) :
    (flat pairs).length = 2 * pairs.length := by
  induction pairs with
  | nil => rfl
  | cons p pairs ih =>
    rw [flat_cons, List.length_cons, List.length_cons, List.length_cons, ih]
    omega

/-- The rounds after `pre` pairs are the pairs that follow. -/
theorem roundsFrom_flat (pre post : List (RedisReply × RedisReply)) {fuel : Nat}
    (hfuel : post.length ≤ fuel) :
    roundsFrom (flat (pre ++ post)) fuel (2 * pre.length + 1) = post := by
  have hlen : (flat (pre ++ post)).length = 2 * pre.length + 2 * post.length := by
    rw [flat_length, List.length_append, Nat.mul_add]
  induction post generalizing pre fuel with
  | nil =>
    cases fuel with
    | zero => rfl
    | succ fuel => rw [roundsFrom, if_neg (by rw [hlen, List.length_nil]; omega)]
  | cons p post ih =>
    obtain ⟨fuel, rfl⟩ : ∃ n, fuel = n + 1 := ⟨fuel - 1, by simp at hfuel; omega⟩
    have hsplit : flat (pre ++ p :: post) = flat pre ++ p.1 :: p.2 :: flat post :=
      List.flatMap_append
    have hprelen := flat_length pre
    have hodd : (flat (pre ++ p :: post)).getD (2 * pre.length + 1 - 1) default = p.1 := by
      rw [hsplit, Nat.add_sub_cancel, ← hprelen, List.getD_eq_getElem?_getD,
        List.getElem?_append_right (Nat.le_refl _), Nat.sub_self]
      rfl
    have heven : (flat (pre ++ p :: post)).getD (2 * pre.length + 1) default = p.2 := by
      rw [hsplit, ← hprelen, List.getD_eq_getElem?_getD,
        List.getElem?_append_right (Nat.le_add_right _ 1), Nat.add_sub_cancel_left]
      rfl
    have hassoc : pre ++ p :: post = (pre ++ [p]) ++ post := by simp
    have hnext : 2 * pre.length + 1 + 2 = 2 * (pre ++ [p]).length + 1 := by
      rw [List.length_append, List.length_singleton]
      omega
    rw [roundsFrom, if_pos (by rw [hlen, List.length_cons]; omega), hodd, heven, hnext, hassoc,
      ih (pre ++ [p]) (by simpa using hfuel) (by rw [flat_length, List.length_append]; omega)]

theorem rounds_flat (pairs : List (RedisReply × RedisReply)) : rounds (flat pairs) = pairs :=
  roundsFrom_flat [] pairs (by rw [flat_length]; omega)

def bulk (t : Text) : RedisReply := .mk .string t []

def array (element : List RedisReply) : RedisReply := .mk .array [] element

/-- The messages of a topic, each with its id behind it. -/
def messagesReply (msgs : List (Text × Text)) : RedisReply :=
  array (flat (msgs.map fun m => (bulk m.1, bulk m.2)))

/-- The topics, each with its messages behind it. -/
def historyReply (history : List (Text × List (Text × Text))) : RedisReply :=
  array (flat (history.map fun e => (bulk e.1, messagesReply e.2)))

/-- Every message of a history with its topic. -/
def triples (history : List (Text × List (Text × Text))) : List SortCtx :=
  history.flatMap fun e => e.2.map fun m => ⟨m.2, m.1, e.1⟩

theorem fillTopic_messages (t : Text) (msgs : List (Text × Text)) (sortc : List SortCtx) :
    fillTopic t (messagesReply msgs) sortc = sortc ++ msgs.map fun m => ⟨m.2, m.1, t⟩ := by
  rw [fillTopic, show (messagesReply msgs).element =
    flat (msgs.map fun m => (bulk m.1, bulk m.2)) from rfl, rounds_flat, List.foldl_map]
  induction msgs generalizing sortc with
  | nil => exact (List.append_nil _).symm
  | cons m msgs ih =>
    rw [List.foldl_cons, ih, List.map_cons, List.append_assoc]
    rfl

theorem fillSortc_history (history : List (Text × List (Text × Text))) :
    fillSortc (historyReply history) = triples history := by
  have hloop : ∀ sortc : List SortCtx, (history.map fun e => (bulk e.1, messagesReply e.2)).foldl
      (fun sortc e => fillTopic e.1.str e.2 sortc) sortc = sortc ++ triples history := by
    induction history with
    | nil => exact fun sortc => (List.append_nil _).symm
    | cons e history ih =>
      intro sortc
      rw [List.map_cons, List.foldl_cons, ih, fillTopic_messages, List.append_assoc]
      rfl
  rw [fillSortc, show (historyReply history).element =
    flat (history.map fun e => (bulk e.1, messagesReply e.2)) from rfl, rounds_flat, hloop,
    List.nil_append]

theorem sdscmp_le_iff (as bs : Text) : sdscmp as bs ≤ 0 ↔ as ≤ bs := by
  induction as generalizing bs with
  | nil =>
    refine iff_of_true ?_ (List.nil_le bs)
    cases bs with
    | nil => exact Int.le_refl 0
    | cons b bs => exact show (-1 : Int) ≤ 0 by decide
  | cons a as ih =>
    cases bs with
    | nil => exact iff_of_false (show ¬ (1 : Int) ≤ 0 by decide) (by simp)
    | cons b bs =>
      rw [List.cons_le_cons_iff, sdscmp]
      split
      · next hlt => exact iff_of_true (by decide) (.inl hlt)
      · next hnot =>
        split
        · next hgt =>
          apply iff_of_false (by decide)
          rintro (hlt | ⟨rfl, -⟩)
          · exact hnot hlt
          · exact hnot hgt
        · next hnot' =>
          have hsame : a = b := UInt8.le_antisymm (UInt8.not_lt.mp hnot') (UInt8.not_lt.mp hnot)
          rw [ih]
          exact ⟨fun h => .inr ⟨hsame, h⟩, fun h => h.elim (absurd · hnot) And.right⟩

theorem comp_consistent : Consistent comp := by
  constructor
  · intro a b
    simp only [comp, sdscmp_le_iff]
    exact List.le_total a.mid b.mid
  · intro a b c hab hbc
    simp only [comp, sdscmp_le_iff] at hab hbc ⊢
    exact List.le_trans hab hbc

theorem deliver_foldl {σ : Type} (cb : Cb σ) (sortc : List SortCtx) (s : σ) :
    deliver ⟨some cb⟩ sortc s =
      sortc.foldl (fun s item => cb item.topic item.mid item.msg s) s := by
  induction sortc generalizing s with
  | nil => rfl
  | cons item sortc ih => exact ih _

/-- A reply with history in it is delivered in the order of the sort. -/
theorem hpSubAllCb_history {σ : Type} (qsort : Qsort) (cb : Cb σ)
    (history : List (Text × List (Text × Text))) (s : σ) :
    hpSubAllCb qsort (some ⟨some cb⟩) (some (historyReply history)) s =
      (qsort.run comp (triples history)).foldl
        (fun s item => cb item.topic item.mid item.msg s) s := by
  unfold hpSubAllCb
  dsimp only
  cases history with
  | nil =>
    have hnil : qsort.run comp (triples []) = [] :=
      List.perm_nil.mp (qsort.perm comp [] comp_consistent)
    rw [if_pos (.inl rfl), hnil]
    rfl
  | cons e history =>
    have hne : ¬ ((historyReply (e :: history)).element = [] ∨
        (historyReply (e :: history)).type = .error) := by
      simp [historyReply, array, RedisReply.element, RedisReply.type]
    rw [if_neg hne, fillSortc_history, deliver_foldl]

/-- A decimal string of a given length, as the ids of a history are. -/
structure Mid (len : Nat) where
  text : Text
  length_eq : text.length = len
  digits : ∀ b ∈ text, Text.isDigit b = true

/-- The history with its ids as the texts they are. -/
def plain {len : Nat} (history : List (Text × List (Text × Mid len))) :
    List (Text × List (Text × Text)) :=
  history.map fun e => (e.1, e.2.map fun m => (m.1, m.2.text))

theorem mid_of_triples {len : Nat} {history : List (Text × List (Text × Mid len))} {item : SortCtx}
    (h : item ∈ triples (plain history)) : ∃ mid : Mid len, item.mid = mid.text := by
  simp only [triples, plain, List.flatMap_map, List.mem_flatMap, List.mem_map] at h
  obtain ⟨e, -, m, ⟨m', -, rfl⟩, rfl⟩ := h
  exact ⟨m'.2, rfl⟩

/-- Whatever the history, `cb` is called once for every message of the reply, with the topic
and the id it stands with, and in the order of the ids. -/
theorem history_delivered {σ : Type} (qsort : Qsort) (cb : Cb σ) {len : Nat}
    (history : List (Text × List (Text × Mid len))) (s : σ) :
    ∃ calls : List SortCtx,
      hpSubAllCb qsort (some ⟨some cb⟩) (some (historyReply (plain history))) s =
        calls.foldl (fun s item => cb item.topic item.mid item.msg s) s ∧
      calls.Perm (triples (plain history)) ∧
      calls.Pairwise fun a b => Text.value a.mid ≤ Text.value b.mid := by
  have hperm := qsort.perm comp (triples (plain history)) comp_consistent
  have hsorted := qsort.sorted comp (triples (plain history)) comp_consistent
  refine ⟨_, hpSubAllCb_history qsort cb _ s, hperm, ?_⟩
  refine hsorted.imp_of_mem fun {a b} ha hb hle => ?_
  obtain ⟨mida, hmida⟩ := mid_of_triples (hperm.mem_iff.mp ha)
  obtain ⟨midb, hmidb⟩ := mid_of_triples (hperm.mem_iff.mp hb)
  rw [comp, sdscmp_le_iff, hmida, hmidb] at hle
  rw [hmida, hmidb]
  exact (Text.le_iff_value_le (mida.length_eq.trans midb.length_eq.symm) mida.digits
    midb.digits).mp hle

/-- A sort that keeps equal ids in the order of the reply. -/
def insertion : Qsort where
  run comp xs := xs.insertionSort fun a b => comp a b ≤ 0
  perm comp xs _ := List.perm_insertionSort _ xs
  sorted comp xs h := by
    have htotal : Std.Total fun a b => comp a b ≤ 0 := ⟨h.total⟩
    have htrans : IsTrans SortCtx fun a b => comp a b ≤ 0 := ⟨h.trans⟩
    exact List.pairwise_insertionSort (fun a b => comp a b ≤ 0) xs

/-- A number is written with the same digits as bytes and as characters. -/
theorem decimal_toDigits (n : Nat) :
    ∃ ds : List Nat, Text.decimal n = ds.map Text.digit ∧ Nat.toDigits 10 n = ds.map Nat.digitChar ∧
      ∀ d ∈ ds, d < 10 := by
  induction n using Nat.strongRecOn with
  | ind n ih =>
    by_cases hn : n < 10
    · refine ⟨[n], ?_, Nat.toDigits_of_lt_base hn, by simpa using hn⟩
      unfold Text.decimal
      split
      · next h0 => rw [h0]; rfl
      · next h0 => rw [Nat.digits_of_lt 10 n h0 hn]; rfl
    · obtain ⟨ds, hdec, hdig, hlt⟩ := ih (n / 10) (by omega)
      refine ⟨ds ++ [n % 10], ?_, ?_, ?_⟩
      · have hquot : n / 10 ≠ 0 := by omega
        rw [Text.decimal, if_neg hquot] at hdec
        rw [Text.decimal, if_neg (by omega), Nat.digits_def' (by decide) (by omega),
          List.reverse_cons, List.map_append, hdec, List.map_append, List.map_singleton]
      · rw [Nat.toDigits_of_base_le (by decide) (by omega), hdig, List.map_append]
        rfl
      · intro d hd
        rcases List.mem_append.mp hd with hd | hd
        · exact hlt d hd
        · rw [List.mem_singleton.mp hd]
          exact Nat.mod_lt n (by decide)

theorem digits_lt_iff {ds es : List Nat} (hd : ∀ d ∈ ds, d < 10) (he : ∀ d ∈ es, d < 10) :
    ds.map Text.digit < es.map Text.digit ↔ ds.map Nat.digitChar < es.map Nat.digitChar := by
  have hdigit : ∀ d < 10, ∀ e < 10, (Text.digit d < Text.digit e ↔
      Nat.digitChar d < Nat.digitChar e) ∧
      (Text.digit d = Text.digit e ↔ Nat.digitChar d = Nat.digitChar e) := by decide
  induction ds generalizing es with
  | nil => cases es <;> simp
  | cons d ds ih =>
    cases es with
    | nil => simp
    | cons e es =>
      obtain ⟨hlt, heq⟩ := hdigit d (hd d List.mem_cons_self) e (he e List.mem_cons_self)
      have hrest : ds.map Text.digit < es.map Text.digit ↔
          ds.map Nat.digitChar < es.map Nat.digitChar :=
        ih (fun x hx => hd x (List.mem_cons_of_mem d hx))
          fun x hx => he x (List.mem_cons_of_mem e hx)
      simp only [List.map_cons, List.cons_lt_cons_iff, hlt, heq, hrest]

theorem digits_le_iff {ds es : List Nat} (hd : ∀ d ∈ ds, d < 10) (he : ∀ d ∈ es, d < 10) :
    ds.map Text.digit ≤ es.map Text.digit ↔ ds.map Nat.digitChar ≤ es.map Nat.digitChar :=
  (not_congr (digits_lt_iff he hd)).trans not_lt

/-- The ids of `sub.lua` as the texts that the reply has. -/
def asTexts (found : List (Text × List Message)) : List (Text × List (Text × Text)) :=
  found.map fun e => (e.1, e.2.map fun m => (m.1, Text.decimal m.2))

def asItem (d : Text × Message) : SortCtx := ⟨Text.decimal d.2.2, d.2.1, d.1⟩

/-- With a sort that keeps equal ids in order, the deliveries are those of the subscriber whose
life the model of `hp_sub_t` follows. -/
theorem deliveries_sortc (found : List (Text × List Message)) :
    insertion.run comp (fillSortc (historyReply (asTexts found))) = (sortc found).map asItem := by
  have hmap : triples (asTexts found) =
      (found.flatMap fun e => e.2.map fun m => (e.1, m)).map asItem := by
    simp [triples, asTexts, List.flatMap_map, List.map_flatMap, asItem, Function.comp_def]
  have horder : ∀ d e : Text × Message, midLe d e ↔ comp (asItem d) (asItem e) ≤ 0 := by
    intro d e
    obtain ⟨ds, hdec, hdig, hlt⟩ := decimal_toDigits d.2.2
    obtain ⟨es, hdec', hdig', hlt'⟩ := decimal_toDigits e.2.2
    rw [comp, sdscmp_le_iff, midLe, hdig, hdig', ← digits_le_iff hlt hlt', ← hdec, ← hdec']
    rfl
  rw [fillSortc_history, hmap, sortc,
    List.map_insertionSort midLe (fun a b => comp a b ≤ 0) asItem _ fun a _ b _ => horder a b]
  rfl

end Libhp.Pub.History
