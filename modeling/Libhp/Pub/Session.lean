import Libhp.Lib.Text
import Libhp.Pub.Redis

/-!
# The session scripts

`scripts/sup.lua` and `scripts/sadd.lua` as they walk the replies they are given: the fields
and values of a session come as one flat list, and the walk that deletes keeps the current
field in a variable between the odd and the even places. The commands are a parameter that
follows their documentation, over any values, any ordered scores and any order of `HGETALL`.
-/
namespace Libhp.Pub

/-- The commands the scripts send, and what the keys hold, seen from outside. A key holds a hash
or nothing (`isHash`), or a sorted set or nothing (`zset`); `none` as a reply is an error, and
`str` is the text of a value. -/
structure Redis (σ V S : Type) [LinearOrder S] where
  hgetall : σ → Text → Option (List Text)
  zrevrange : σ → Text → Option (Option (Text × V))
  hsetnx : σ → Text → Text → V → Option σ
  hdel : σ → Text → Text → Option σ
  zero : V
  str : V → Text
  render : S → V
  isHash : σ → Text → Bool
  field : σ → Text → Text → Option V
  zset : σ → Text → Option (List (Text × S))
  hgetall_spec : ∀ s key, isHash s key = true → ∃ entries : List (Text × V),
    hgetall s key = some (entries.flatMap fun e => [e.1, str e.2]) ∧
      ∀ t v, (t, v) ∈ entries ↔ field s key t = some v
  zrevrange_none : ∀ s key, zset s key = some [] → zrevrange s key = some none
  zrevrange_spec : ∀ s key m ms, zset s key = some (m :: ms) → ∃ top ∈ m :: ms,
    zrevrange s key = some (some (top.1, render top.2)) ∧ ∀ other ∈ m :: ms, other.2 ≤ top.2
  hsetnx_spec : ∀ s key t v, isHash s key = true → ∃ s', hsetnx s key t v = some s' ∧
    isHash s' key = true ∧
    (∀ t', field s' key t' = if t' = t then some ((field s key t).getD v) else field s key t') ∧
    ∀ key', key' ≠ key → isHash s' key' = isHash s key' ∧ field s' key' = field s key' ∧
      zset s' key' = zset s key'
  hdel_spec : ∀ s key t, isHash s key = true → ∃ s', hdel s key t = some s' ∧
    isHash s' key = true ∧
    (∀ t', field s' key t' = if t' = t then none else field s key t') ∧
    ∀ key', key' ≠ key → isHash s' key' = isHash s key' ∧ field s' key' = field s key' ∧
      zset s' key' = zset s key'

namespace Redis

section
variable {σ V S : Type} [LinearOrder S] (r : Redis σ V S)

/-- `score`: the second element of the reply, and 0 where the reply is empty. -/
def latest : Option (Text × V) → V
  | some (_, score) => score
  | none => r.zero

/-- The loop over `KEYS` of both scripts; `keys` is the table that `sup.lua` fills. The flag is
false when a command fails, which ends the script and keeps what it has done. -/
def insertNew (sid : Text) : List Text → List Text → σ → List Text × σ × Bool
  | [], keys, s => (keys, s, true)
  | v :: rest, keys, s =>
    let keys := v :: keys
    match r.zrevrange s v with
    | none => (keys, s, false)
    | some c =>
      match r.hsetnx s sid v (r.latest c) with
      | none => (keys, s, false)
      | some s => insertNew sid rest keys s

/-- The loop of `sup.lua` over the reply of `HGETALL`, from place `i` on. -/
def removeOld (sid : Text) (keys : List Text) :
    Nat → Option Text → List Text → σ → σ × Bool
  | _, _, [], s => (s, true)
  | i, k, v :: rest, s =>
    if i % 2 = 0 then
      match k with
      | none => (s, false)
      | some name =>
        if name ∈ keys then removeOld sid keys (i + 1) k rest s
        else
          match r.hdel s sid name with
          | none => (s, false)
          | some s => removeOld sid keys (i + 1) k rest s
    else removeOld sid keys (i + 1) (some v) rest s

/-- `scripts/sup.lua` -/
def sup (topics : List Text) (sid : Text) (s : σ) : σ × Bool :=
  match r.hgetall s sid with
  | none => (s, false)
  | some reply =>
    match r.insertNew sid topics [] s with
    | (keys, s, true) => r.removeOld sid keys 1 none reply s
    | (_, s, false) => (s, false)

/-- `scripts/sadd.lua` -/
def sadd (topics : List Text) (sid : Text) (s : σ) : σ × Bool :=
  match r.hgetall s sid with
  | none => (s, false)
  | some _ =>
    match r.insertNew sid topics [] s with
    | (_, s, ok) => (s, ok)

end

section
variable {σ V S : Type} [LinearOrder S] {r : Redis σ V S}

/-- The value a topic starts with: the score of its newest message, or 0 without messages. -/
def Newest (r : Redis σ V S) (s : σ) (topic : Text) (v : V) : Prop :=
  (r.zset s topic = some [] ∧ v = r.zero) ∨
    ∃ msgs, r.zset s topic = some msgs ∧ ∃ top ∈ msgs, v = r.render top.2 ∧
      ∀ other ∈ msgs, other.2 ≤ top.2

/-- Only the fields of the session have changed. -/
structure Edit (r : Redis σ V S) (sid : Text) (s s' : σ) : Prop where
  hash : r.isHash s' sid = true
  others : ∀ key, key ≠ sid → r.isHash s' key = r.isHash s key ∧ r.field s' key = r.field s key ∧
    r.zset s' key = r.zset s key

theorem Edit.refl {sid : Text} {s : σ} (h : r.isHash s sid = true) : r.Edit sid s s :=
  ⟨h, fun _ _ => ⟨rfl, rfl, rfl⟩⟩

theorem Edit.trans {sid : Text} {s s' s'' : σ} (h : r.Edit sid s s') (h' : r.Edit sid s' s'') :
    r.Edit sid s s'' := by
  refine ⟨h'.hash, fun key hne => ?_⟩
  obtain ⟨hhash, hfield, hzset⟩ := h.others key hne
  obtain ⟨hhash', hfield', hzset'⟩ := h'.others key hne
  exact ⟨hhash'.trans hhash, hfield'.trans hfield, hzset'.trans hzset⟩

/-- The score that a round of the first loop finds. -/
theorem zrevrange_newest {s : σ} {topic : Text} {msgs : List (Text × S)}
    (h : r.zset s topic = some msgs) :
    ∃ c, r.zrevrange s topic = some c ∧ r.Newest s topic (r.latest c) := by
  cases msgs with
  | nil => exact ⟨none, r.zrevrange_none s topic h, .inl ⟨h, rfl⟩⟩
  | cons m ms =>
    obtain ⟨top, hmem, hrev, htop⟩ := r.zrevrange_spec s topic m ms h
    exact ⟨_, hrev, .inr ⟨m :: ms, h, top, hmem, rfl, htop⟩⟩

theorem Edit.newest {sid : Text} {s s' : σ} (h : r.Edit sid s s') {topic : Text}
    (hne : topic ≠ sid) {v : V} : r.Newest s' topic v ↔ r.Newest s topic v := by
  unfold Newest
  rw [(h.others topic hne).2.2]

/-- One round of the first loop. -/
theorem insertNew_round {sid v : Text} {s : σ} (h : r.isHash s sid = true)
    {msgs : List (Text × S)} (hz : r.zset s v = some msgs) (rest keys : List Text) :
    ∃ s' score, r.insertNew sid (v :: rest) keys s = r.insertNew sid rest (v :: keys) s' ∧
      r.Edit sid s s' ∧ r.Newest s v score ∧
      ∀ t, r.field s' sid t =
        if t = v then some ((r.field s sid v).getD score) else r.field s sid t := by
  obtain ⟨c, hrev, hnew⟩ := zrevrange_newest hz
  obtain ⟨s', hset, hhash, hfield, hothers⟩ := r.hsetnx_spec s sid v _ h
  refine ⟨s', _, ?_, ⟨hhash, hothers⟩, hnew, hfield⟩
  rw [insertNew, hrev]
  dsimp only
  rw [hset]

/-- The first loop gives every topic a field, and touches no field that was there. Only the
first topic may be the session's own key: from then on that key holds a hash. -/
theorem insertNew_spec {sid : Text} (topics keys : List Text) {s : σ}
    (h : r.isHash s sid = true) (hz : ∀ t ∈ topics, ∃ msgs, r.zset s t = some msgs)
    (hsid : sid ∉ topics.tail) :
    ∃ s', r.insertNew sid topics keys s = (topics.reverse ++ keys, s', true) ∧ r.Edit sid s s' ∧
      (∀ t, t ∉ topics → r.field s' sid t = r.field s sid t) ∧
      ∀ t ∈ topics, ∃ v, r.field s' sid t = some v ∧
        (r.field s sid t = some v ∨ r.field s sid t = none ∧ r.Newest s t v) := by
  induction topics generalizing keys s with
  | nil => exact ⟨s, rfl, .refl h, fun t _ => rfl, fun t ht => absurd ht List.not_mem_nil⟩
  | cons v rest ih =>
    obtain ⟨msgs, hmsgs⟩ := hz v List.mem_cons_self
    obtain ⟨s₁, score, hround, hedit, hnew, hfield⟩ := insertNew_round h hmsgs rest keys
    have hrest : ∀ t ∈ rest, t ≠ sid := fun t ht heq => hsid (heq ▸ ht)
    have hz₁ : ∀ t ∈ rest, ∃ msgs, r.zset s₁ t = some msgs := by
      intro t ht
      rw [(hedit.others t (hrest t ht)).2.2]
      exact hz t (List.mem_cons_of_mem _ ht)
    obtain ⟨s', hrun, hedit', hout, hin⟩ := ih (v :: keys) hedit.hash hz₁
      fun hmem => hrest sid (List.mem_of_mem_tail hmem) rfl
    refine ⟨s', ?_, hedit.trans hedit', fun t ht => ?_, fun t ht => ?_⟩
    · rw [hround, hrun, List.reverse_cons, List.append_assoc, List.singleton_append]
    · rw [List.mem_cons, not_or] at ht
      rw [hout t ht.2, hfield, if_neg ht.1]
    · by_cases hmem : t ∈ rest
      · obtain ⟨value, hvalue, hcase⟩ := hin t hmem
        refine ⟨value, hvalue, ?_⟩
        rw [hfield, hedit.newest (hrest t hmem)] at hcase
        by_cases heq : t = v
        · subst heq
          rw [if_pos rfl] at hcase
          rcases hcase with hold | ⟨hnone, -⟩
          · cases hbefore : r.field s sid t with
            | some old => exact .inl (by rw [hbefore] at hold; exact hold)
            | none =>
              rw [hbefore] at hold
              cases hold
              exact .inr ⟨rfl, hnew⟩
          · cases hnone
        · rwa [if_neg heq] at hcase
      · have heq : t = v := (List.mem_cons.mp ht).resolve_right hmem
        subst heq
        refine ⟨_, by rw [hout t hmem, hfield, if_pos rfl], ?_⟩
        cases hbefore : r.field s sid t with
        | some old => exact .inl rfl
        | none => exact .inr ⟨rfl, hnew⟩

/-- The walk over the flat reply meets every old field once, at an odd place, and deletes the
ones that `keys` does not hold. -/
theorem removeOld_spec {sid : Text} (keys : List Text) (entries : List (Text × V)) {i : Nat}
    (hi : i % 2 = 1) (k : Option Text) {s : σ} (h : r.isHash s sid = true) :
    ∃ s', r.removeOld sid keys i k (entries.flatMap fun e => [e.1, r.str e.2]) s = (s', true) ∧
      r.Edit sid s s' ∧
      ∀ t, r.field s' sid t =
        if t ∈ entries.map Prod.fst ∧ t ∉ keys then none else r.field s sid t := by
  induction entries generalizing i k s with
  | nil => exact ⟨s, rfl, .refl h, fun t => by simp⟩
  | cons e entries ih =>
    have hodd : (i + 1 + 1) % 2 = 1 := by omega
    have hname : ¬ i % 2 = 0 := by omega
    have hvalue : (i + 1) % 2 = 0 := by omega
    simp only [List.flatMap_cons, List.cons_append, List.nil_append, removeOld, hname, hvalue,
      ↓reduceIte]
    by_cases hkey : e.1 ∈ keys
    · rw [if_pos hkey]
      obtain ⟨s', hrun, hedit, hfield⟩ := ih hodd (some e.1) h
      refine ⟨s', hrun, hedit, fun t => ?_⟩
      have hsame : t ∈ entries.map Prod.fst ∧ t ∉ keys ↔
          t ∈ (e :: entries).map Prod.fst ∧ t ∉ keys := by
        rw [List.map_cons, List.mem_cons]
        exact ⟨fun ⟨hmem, hnot⟩ => ⟨.inr hmem, hnot⟩,
          fun ⟨hmem, hnot⟩ => ⟨hmem.resolve_left fun heq => hnot (heq ▸ hkey), hnot⟩⟩
      rw [hfield, if_congr hsame rfl rfl]
    · rw [if_neg hkey]
      obtain ⟨s₁, hdel, hhash, hfield₁, hothers⟩ := r.hdel_spec s sid e.1 h
      rw [hdel]
      dsimp only
      obtain ⟨s', hrun, hedit, hfield⟩ := ih hodd (some e.1) hhash
      refine ⟨s', hrun, Edit.trans ⟨hhash, hothers⟩ hedit, fun t => ?_⟩
      rw [hfield, hfield₁]
      by_cases heq : t = e.1
      · rw [if_pos heq, ite_self, if_pos ⟨by rw [List.map_cons, heq]; exact List.mem_cons_self,
          heq ▸ hkey⟩]
      · have hsame : t ∈ entries.map Prod.fst ∧ t ∉ keys ↔
            t ∈ (e :: entries).map Prod.fst ∧ t ∉ keys := by
          rw [List.map_cons, List.mem_cons, or_iff_right heq]
        rw [if_neg heq, if_congr hsame rfl rfl]

end

section
variable {σ V S : Type} [LinearOrder S] (r : Redis σ V S)

/-- A session after a script: its fields are the wanted ones, those that it had keep their
value, the others start at the newest message of their topic, and no other key has changed. -/
structure Updated (sid : Text) (wanted : Text → Prop) (s s' : σ) : Prop where
  fields : ∀ t, (r.field s' sid t).isSome = true ↔ wanted t
  kept : ∀ t v, wanted t → r.field s sid t = some v → r.field s' sid t = some v
  fresh : ∀ t, wanted t → r.field s sid t = none →
    ∃ v, r.field s' sid t = some v ∧ r.Newest s t v
  others : ∀ key, key ≠ sid → r.isHash s' key = r.isHash s key ∧
    r.field s' key = r.field s key ∧ r.zset s' key = r.zset s key

/-- `sup.lua` leaves the given topics, `sadd.lua` adds them. -/
def ScriptsUpdate (topics : List Text) (sid : Text) (s : σ) : Prop :=
  ((r.sup topics sid s).2 = true ∧
    r.Updated sid (fun t => t ∈ topics) s (r.sup topics sid s).1) ∧
  (r.sadd topics sid s).2 = true ∧
    r.Updated sid (fun t => t ∈ topics ∨ (r.field s sid t).isSome = true) s
      (r.sadd topics sid s).1

variable {r}

/-- What the first loop leaves is the session that `sadd.lua` is to make. -/
theorem updated_of_insert {sid : Text} {topics : List Text} {s s' : σ} (hedit : r.Edit sid s s')
    (hout : ∀ t, t ∉ topics → r.field s' sid t = r.field s sid t)
    (hin : ∀ t ∈ topics, ∃ v, r.field s' sid t = some v ∧
      (r.field s sid t = some v ∨ r.field s sid t = none ∧ r.Newest s t v)) :
    r.Updated sid (fun t => t ∈ topics ∨ (r.field s sid t).isSome = true) s s' := by
  constructor
  · intro t
    by_cases hmem : t ∈ topics
    · obtain ⟨v, hv, -⟩ := hin t hmem
      simp [hv, hmem]
    · simp [hout t hmem, hmem]
  · intro t v _ hv
    by_cases hmem : t ∈ topics
    · obtain ⟨v', hv', hold | ⟨hnone, -⟩⟩ := hin t hmem
      · exact hv'.trans (hold.symm.trans hv)
      · rw [hnone] at hv
        cases hv
    · exact (hout t hmem).trans hv
  · intro t ht hnone
    have hmem : t ∈ topics := ht.resolve_right (by rw [hnone]; exact Bool.false_ne_true)
    obtain ⟨v, hv, hold | ⟨-, hnew⟩⟩ := hin t hmem
    · rw [hold] at hnone
      cases hnone
    · exact ⟨v, hv, hnew⟩
  · exact hedit.others

/-- Deleting what the topics do not name leaves exactly the topics. -/
theorem Updated.restrict {sid : Text} {topics : List Text} {s s₁ s' : σ}
    (h : r.Updated sid (fun t => t ∈ topics ∨ (r.field s sid t).isSome = true) s s₁)
    (hedit : r.Edit sid s₁ s')
    (hfield : ∀ t, r.field s' sid t =
      if (r.field s sid t).isSome = true ∧ t ∉ topics then none else r.field s₁ sid t) :
    r.Updated sid (fun t => t ∈ topics) s s' := by
  have hin : ∀ t ∈ topics, r.field s' sid t = r.field s₁ sid t := fun t ht => by
    rw [hfield, if_neg fun hand => hand.2 ht]
  constructor
  · intro t
    by_cases hmem : t ∈ topics
    · rw [hin t hmem, h.fields]
      exact iff_of_true (.inl hmem) hmem
    · refine iff_of_false ?_ hmem
      rw [hfield]
      split
      · exact Bool.false_ne_true
      · next hand => rw [h.fields]; tauto
  · intro t v ht hv
    exact (hin t ht).trans (h.kept t v (.inl ht) hv)
  · intro t ht hnone
    obtain ⟨v, hv, hnew⟩ := h.fresh t (.inl ht) hnone
    exact ⟨v, (hin t ht).trans hv, hnew⟩
  · intro key hne
    obtain ⟨hhash, hfld, hzset⟩ := h.others key hne
    obtain ⟨hhash', hfld', hzset'⟩ := hedit.others key hne
    exact ⟨hhash'.trans hhash, hfld'.trans hfld, hzset'.trans hzset⟩

/-- For every session, and topics each of which holds a sorted set or nothing and none of which
after the first is the session's own key, both scripts do what they are for. -/
theorem scripts_update (r : Redis σ V S) (topics : List Text) (sid : Text) (s : σ)
    (hsession : r.isHash s sid = true) (htopics : ∀ t ∈ topics, ∃ msgs, r.zset s t = some msgs)
    (hown : sid ∉ topics.tail) : r.ScriptsUpdate topics sid s := by
  obtain ⟨entries, hreply, hentries⟩ := r.hgetall_spec s sid hsession
  obtain ⟨s₁, hinsert, hedit, hout, hin⟩ :=
    insertNew_spec topics [] hsession htopics hown
  have hadd := updated_of_insert hedit hout hin
  obtain ⟨s₂, hremove, hedit', hfield⟩ :=
    removeOld_spec (topics.reverse ++ []) entries (i := 1) rfl none hedit.hash
  have hsup : r.sup topics sid s = (s₂, true) := by
    simp only [sup, hreply, hinsert, hremove]
  have hsadd : r.sadd topics sid s = (s₁, true) := by
    simp only [sadd, hreply, hinsert]
  have hold : ∀ t, t ∈ entries.map Prod.fst ↔ (r.field s sid t).isSome = true := by
    intro t
    simp only [List.mem_map, Prod.exists, exists_and_right, exists_eq_right, hentries,
      Option.isSome_iff_exists]
  rw [ScriptsUpdate, hsup, hsadd]
  refine ⟨⟨rfl, hadd.restrict hedit' fun t => ?_⟩, rfl, hadd⟩
  rw [hfield, List.append_nil]
  simp only [hold, List.mem_reverse]

end
end Redis

theorem HashEdit.observed {sid : Text} {db db' : Db} (h : HashEdit sid db db') (key : Text)
    (hne : key ≠ sid) :
    (db'.hash key).isSome = (db.hash key).isSome ∧ db'.field key = db.field key ∧
      (db'.zset key).map ZSet.ranked = (db.zset key).map ZSet.ranked := by
  have hsame := h.others key hne
  have hhash : db'.hash key = db.hash key := by rw [Db.hash, Db.hash, hsame]
  have hzset : db'.zset key = db.zset key := by rw [Db.zset, Db.zset, hsame]
  refine ⟨by rw [hhash], ?_, by rw [hzset]⟩
  funext t
  exact h.field_ne hne t

/-- The last message in the order of a sorted set has the highest score. -/
theorem ZSet.ranked_top {z : ZSet} {m : Message} {ms : List Message} (h : z.ranked = m :: ms) :
    ∃ top ∈ m :: ms, z.ranked.getLast? = some top ∧ ∀ other ∈ m :: ms, other.2 ≤ top.2 := by
  have hne : z.ranked ≠ [] := by rw [h]; exact List.cons_ne_nil m ms
  have hlast := List.getLast?_eq_some_getLast hne
  refine ⟨z.ranked.getLast hne, h ▸ List.getLast_mem hne, hlast, fun other hmem => ?_⟩
  have htop : z.topScore = (z.ranked.getLast hne).2 := by
    rw [topScore, hlast, Option.map_some, Option.getD_some]
  rw [← htop]
  exact le_topScore (mem_ranked.mp (h ▸ hmem))

/-- Natural numbers as scores and as values, `HGETALL` in the order of the entries. -/
def Db.redis : Redis Db Nat Nat where
  hgetall db key := (db.hash key).map fun h => h.entries.flatMap fun e => [e.1, Text.decimal e.2]
  zrevrange db key := (db.zset key).map fun z => z.ranked.getLast?
  hsetnx := Db.hsetnx
  hdel := Db.hdel
  zero := 0
  str := Text.decimal
  render := id
  isHash db key := (db.hash key).isSome
  field := Db.field
  zset db key := (db.zset key).map ZSet.ranked
  hgetall_spec := by
    intro db key hsome
    obtain ⟨h, hh⟩ := Option.isSome_iff_exists.mp hsome
    refine ⟨h.entries.map fun e => (e.1, e.2), ?_, fun t v => ?_⟩
    · rw [hh, Option.map_some, List.flatMap_map]
    · rw [Db.field, hh, Option.bind_some, List.mem_map]
      constructor
      · intro ⟨⟨t', v'⟩, hmem, heq⟩
        cases heq
        exact AList.mem_lookup_iff.mpr hmem
      · exact fun hlook => ⟨⟨t, v⟩, AList.mem_lookup_iff.mp hlook, rfl⟩
  zrevrange_none := by
    intro db key hempty
    obtain ⟨z, hz, hranked⟩ := Option.map_eq_some_iff.mp hempty
    rw [hz, Option.map_some, hranked]
    rfl
  zrevrange_spec := by
    intro db key m ms hranked
    obtain ⟨z, hz, hrank⟩ := Option.map_eq_some_iff.mp hranked
    obtain ⟨top, hmem, hlast, htop⟩ := ZSet.ranked_top hrank
    refine ⟨top, hmem, ?_, htop⟩
    rw [hz, Option.map_some, hlast]
    rfl
  hsetnx_spec := by
    intro db key t v hsome
    obtain ⟨h, hh⟩ := Option.isSome_iff_exists.mp hsome
    obtain ⟨db', hset⟩ : ∃ db', db.hsetnx key t v = some db' := ⟨_, by rw [Db.hsetnx, hh]; rfl⟩
    obtain ⟨hedit, hfield⟩ := Db.hsetnx_spec hset
    exact ⟨db', hset, hedit.after, hfield, hedit.observed⟩
  hdel_spec := by
    intro db key t hsome
    obtain ⟨h, hh⟩ := Option.isSome_iff_exists.mp hsome
    obtain ⟨db', hdel⟩ : ∃ db', db.hdel key t = some db' := ⟨_, by rw [Db.hdel, hh]; rfl⟩
    obtain ⟨hedit, hfield⟩ := Db.hdel_spec hdel
    exact ⟨db', hdel, hedit.after, hfield, hedit.observed⟩

@[simp] theorem Db.redis_zrevrange (db : Db) (key : Text) :
    Db.redis.zrevrange db key = (db.zset key).map fun z => z.ranked.getLast? := rfl

@[simp] theorem Db.redis_hsetnx (db : Db) (key t : Text) (v : Nat) :
    Db.redis.hsetnx db key t v = db.hsetnx key t v := rfl

@[simp] theorem Db.redis_hdel (db : Db) (key t : Text) :
    Db.redis.hdel db key t = db.hdel key t := rfl

theorem Db.redis_latest (z : ZSet) : Db.redis.latest z.ranked.getLast? = z.topScore := by
  rw [ZSet.topScore]
  cases z.ranked.getLast? with
  | none => rfl
  | some top => rfl

theorem insertNew_eq (sid : Text) (topics keys : List Text) (db : Db) :
    Db.redis.insertNew sid topics keys db =
      ((Db.redis.insertNew sid topics keys db).1, supAdd sid topics db) ∧
    ((supAdd sid topics db).2 = true →
      (Db.redis.insertNew sid topics keys db).1 = topics.reverse ++ keys) := by
  induction topics generalizing keys db with
  | nil => exact ⟨rfl, fun _ => rfl⟩
  | cons v rest ih =>
    unfold Redis.insertNew supAdd
    rw [Db.redis_zrevrange]
    cases db.zset v with
    | none => exact ⟨rfl, fun h => absurd h Bool.false_ne_true⟩
    | some z =>
      simp only [Option.map_some, Db.redis_latest, Db.redis_hsetnx]
      cases db.hsetnx sid v z.topScore with
      | none => exact ⟨rfl, fun h => absurd h Bool.false_ne_true⟩
      | some db₁ =>
        obtain ⟨hrun, hkeys⟩ := ih (v :: keys) db₁
        refine ⟨hrun, fun h => ?_⟩
        rw [List.reverse_cons, List.append_assoc, List.singleton_append]
        exact hkeys h

/-- The walk over the flat reply is the walk over the fields. -/
theorem removeOld_eq {sid : Text} {keys keys' : List Text} (hkeys : ∀ k, k ∈ keys ↔ k ∈ keys')
    (entries : List (Sigma fun _ : Text => Nat)) {i : Nat} (hi : i % 2 = 1) (k : Option Text)
    (db : Db) :
    Db.redis.removeOld sid keys i k (entries.flatMap fun e => [e.1, Text.decimal e.2]) db =
      supRemove sid keys' (entries.map Sigma.fst) db := by
  induction entries generalizing i k db with
  | nil => rfl
  | cons e entries ih =>
    have hodd : (i + 1 + 1) % 2 = 1 := by omega
    have hname : ¬ i % 2 = 0 := by omega
    have hvalue : (i + 1) % 2 = 0 := by omega
    simp only [List.flatMap_cons, List.cons_append, List.nil_append, Redis.removeOld, hname,
      hvalue, ↓reduceIte, ih hodd, List.map_cons, supRemove, hkeys, Db.redis_hdel]
    by_cases hmem : e.1 ∈ keys'
    · rw [if_pos hmem, if_pos hmem]
    · rw [if_neg hmem, if_neg hmem]
      cases db.hdel sid e.1 with
      | none => rfl
      | some db₁ => rfl

/-- On this key space the script is the one that publish and subscribe are proved with. -/
theorem sup_eq_supLua (topics : List Text) (sid : Text) (db : Db) :
    Db.redis.sup topics sid db = supLua topics sid db := by
  obtain ⟨hrun, hkeys⟩ := insertNew_eq sid topics [] db
  unfold Redis.sup supLua
  have hreply : Db.redis.hgetall db sid =
      (db.hash sid).map fun h => h.entries.flatMap fun e => [e.1, Text.decimal e.2] := rfl
  rw [hreply]
  cases db.hash sid with
  | none => rfl
  | some h =>
    rw [Option.map_some, hrun]
    dsimp only
    cases hadd : supAdd sid topics db with
    | mk db₁ ok =>
      rw [hadd] at hkeys
      cases ok with
      | false => rfl
      | true =>
        have hmem : ∀ k, k ∈ (Db.redis.insertNew sid topics [] db).1 ↔ k ∈ topics := by
          intro k
          rw [hkeys rfl, List.append_nil, List.mem_reverse]
        exact removeOld_eq hmem h.entries rfl none db₁

/-- A session with the topics `a` and `b`, and a message 9 under `c`. -/
def aSession : Db :=
  ((∅ : Db).insert [115] (.hash (((∅ : Hash).insert [97] 5).insert [98] 6))).insert [99]
    (.zset ((∅ : ZSet).insert [1] 9))

theorem scripts_update_aSession :
    Db.redis.ScriptsUpdate [[98], [99], [99]] [115] aSession := by
  have hzset : ∀ t ∈ [[98], [99], [99]], (Db.redis.zset aSession t).isSome = true := by decide
  exact Redis.scripts_update Db.redis _ _ _ (by decide)
    (fun t ht => Option.isSome_iff_exists.mp (hzset t ht)) (by decide)

/-- No session yet, and its key is the second topic: by then the key holds a hash, `ZREVRANGE`
fails, and the script ends before the second topic has its field. -/
theorem own_key_aborts :
    Db.redis.isHash ∅ [115] = true ∧
      (∀ t ∈ [[116], [115]], ∃ msgs, Db.redis.zset ∅ t = some msgs) ∧
      (Db.redis.sup [[116], [115]] [115] ∅).2 = false ∧
      Db.redis.field (Db.redis.sup [[116], [115]] [115] ∅).1 [115] [115] = none ∧
      ¬ Db.redis.ScriptsUpdate [[116], [115]] [115] ∅ := by
  have hzset : ∀ t ∈ [[116], [115]], (Db.redis.zset ∅ t).isSome = true := by decide
  have hfails : (Db.redis.sup [[116], [115]] [115] ∅).2 = false := by decide
  refine ⟨by decide, fun t ht => Option.isSome_iff_exists.mp (hzset t ht), hfails, by decide, ?_⟩
  intro hupdate
  rw [hupdate.1.1] at hfails
  cases hfails

end Libhp.Pub
