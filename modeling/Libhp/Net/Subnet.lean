import Libhp.Str.Buf

/-!
# Addresses of one subnet

`netutil_in_same_subnet` of `hp_net.c`: a list of addresses, separated by `:`, is copied to a
buffer on the stack, and each of them is compared with an address under the mask.
-/
namespace Libhp.Net
open Libhp.Buf
open Libhp.Str (Fault)

/-- `inet_pton(AF_INET, ..)`, the addresses in the order of the network; the default mask is one. -/
structure InetPton where
  pton : Chars → Option (BitVec 32)
  netmask : BitVec 32
  pton_netmask : pton "255.255.255.0".toList = some netmask

theorem strchr_length {p s rest : Chars} {c : Char} (h : strchr p c = .ok (some (s, rest))) :
    rest.length < p.length := by
  unfold strchr at h
  split at h
  · cases h
  · next x tail hdrop =>
    have hlen := (List.dropWhile_suffix (l := p) fun x => decide (x ≠ c ∧ x ≠ nul)).length_le
    rw [hdrop, List.length_cons] at hlen
    split at h
    · cases h
      exact hlen
    · cases h

section
variable (inet : InetPton) (mask : Int) (ip : BitVec 32)

/-- `netutil_same_subnet2`, which knows the default mask only. -/
def netutilSameSubnet2 (ip1 : Chars) : Bool :=
  if mask < 0 then
    match inet.pton ip1, inet.pton "255.255.255.0".toList with
    | some addr1, some addr => addr1 &&& addr == ip &&& addr
    | _, _ => false
  else false

/-- The loop from `p` on. -/
def subnetLoop (p : Chars) : Except Fault Int :=
  match _h : strchr p ':' with
  | .error e => .error e
  | .ok none => .ok 0
  | .ok (some (item, rest)) =>
    if item = [] then subnetLoop rest
    else if netutilSameSubnet2 inet mask ip item then .ok 1
    else subnetLoop rest
termination_by p.length
decreasing_by all_goals exact strchr_length _h

/-- `netutil_in_same_subnet`, with what the last two bytes of the buffer hold before: `strncpy`
fills the others. -/
def netutilInSameSubnet (ips : Option Chars) (x y : Char) : Except Fault Int :=
  match ips with
  | none | some [] => .ok 0
  | some ips =>
    let buf := ncopy ips 510 ++ [x, y]
    match strchr buf nul with
    | .error e => .error e
    | .ok none => .error .read
    | .ok (some (_, [])) => .error .write
    | .ok (some (before, _ :: rest)) => subnetLoop inet mask ip (before ++ ':' :: nul :: rest)

/-- An address of the list is in the subnet of the other one. -/
def InSubnet (ips : Chars) : Prop :=
  ∃ item ∈ ips.splitOn ':', item ≠ [] ∧ netutilSameSubnet2 inet mask ip item = true

instance (ips : Chars) : Decidable (InSubnet inet mask ip ips) :=
  inferInstanceAs (Decidable (∃ _ ∈ _, _))

end

section
variable {inet : InetPton} {mask : Int} {ip : BitVec 32} {ips : Chars}

theorem strchr_nul {p : Chars} (h : nul ∉ p) : strchr p nul = .error .read := by
  have hall : p.dropWhile (fun x => decide (x ≠ nul ∧ x ≠ nul)) = [] :=
    List.dropWhile_eq_nil_iff.mpr fun x hx =>
      have hne : x ≠ nul := fun heq => h (heq ▸ hx)
      decide_eq_true ⟨hne, hne⟩
  rw [strchr, hall]

theorem subnetLoop_found {p item rest : Chars} (h : strchr p ':' = .ok (some (item, rest))) :
    subnetLoop inet mask ip p =
      if item ≠ [] ∧ netutilSameSubnet2 inet mask ip item = true then .ok 1
      else subnetLoop inet mask ip rest := by
  rw [subnetLoop]
  split
  · next heq => rw [h] at heq; cases heq
  · next heq => rw [h] at heq; cases heq
  · next heq =>
    rw [h] at heq
    cases heq
    by_cases hnil : item = []
    · rw [if_pos hnil, if_neg fun h => h.1 hnil]
    · by_cases hsame : netutilSameSubnet2 inet mask ip item = true
      · rw [if_neg hnil, if_pos hsame, if_pos ⟨hnil, hsame⟩]
      · rw [if_neg hnil, if_neg hsame, if_neg fun h => hsame h.2]

/-- Behind the last `:` there is nothing. -/
theorem subnetLoop_end (rest : Chars) : subnetLoop inet mask ip (nul :: rest) = .ok 0 := by
  have hnone : strchr (nul :: rest) ':' = .ok none := by
    rw [strchr, List.dropWhile_cons_of_neg (by simp)]
    rfl
  rw [subnetLoop]
  split
  · next heq => rw [hnone] at heq; cases heq
  · rfl
  · next heq => rw [hnone] at heq; cases heq

/-- The loop asks for one item after the other. -/
theorem subnetLoop_eq {s : Chars} (hs : nul ∉ s) (rest : Chars) :
    subnetLoop inet mask ip (s ++ ':' :: nul :: rest) =
      .ok (if InSubnet inet mask ip s then 1 else 0) := by
  induction hn : s.length using Nat.strong_induction_on generalizing s with
  | _ n ih =>
    by_cases hcolon : ':' ∈ s
    · obtain ⟨item, more, rfl, hitem⟩ := List.eq_append_cons_of_mem hcolon
      have hsplit : (item ++ ':' :: more).splitOn ':' = item :: more.splitOn ':' :=
        List.splitOn_append_cons_self_of_not_mem hitem more
      have hnul : nul ∉ item := fun h => hs (List.mem_append_left _ h)
      have hmore : nul ∉ more := fun h =>
        hs (List.mem_append_right _ (List.mem_cons_of_mem _ h))
      have hrest := ih more.length (by simp [← hn]; omega) hmore rfl
      have hin : InSubnet inet mask ip (item ++ ':' :: more) ↔
          (item ≠ [] ∧ netutilSameSubnet2 inet mask ip item = true) ∨
            InSubnet inet mask ip more := by
        simp only [InSubnet, hsplit, List.mem_cons, exists_eq_or_imp]
      rw [List.append_assoc, List.cons_append, subnetLoop_found (strchr_found hnul hitem _), hrest]
      by_cases hfirst : item ≠ [] ∧ netutilSameSubnet2 inet mask ip item = true
      · rw [if_pos hfirst, if_pos (hin.mpr (.inl hfirst))]
      · rw [if_neg hfirst]
        simp only [hin, hfirst, false_or]
    · have hin : InSubnet inet mask ip s ↔
          s ≠ [] ∧ netutilSameSubnet2 inet mask ip s = true := by
        rw [InSubnet, List.splitOn_eq_singleton hcolon]
        simp
      rw [subnetLoop_found (strchr_found hs hcolon _), subnetLoop_end]
      by_cases hsame : s ≠ [] ∧ netutilSameSubnet2 inet mask ip s = true
      · rw [if_pos hsame, if_pos (hin.mpr hsame)]
      · rw [if_neg hsame, if_neg fun h => hsame (hin.mp h)]

/-- A list that fills the buffer is read past its end if no byte behind it is a NUL. -/
theorem inSameSubnet_overruns (hips : nul ∉ ips) (hlong : 510 ≤ ips.length) :
    netutilInSameSubnet inet mask ip (some ips) ':' ':' = .error .read := by
  obtain ⟨c, cs, rfl⟩ := List.exists_cons_of_length_pos (Nat.lt_of_lt_of_le (by decide) hlong)
  have hbuf : nul ∉ ncopy (c :: cs) 510 ++ [':', ':'] := by
    rw [ncopy_long hlong]
    intro hin
    rcases List.mem_append.mp hin with hin | hin
    · exact hips (List.mem_of_mem_take hin)
    · exact absurd hin (by decide)
  simp only [netutilInSameSubnet, strchr_nul hbuf]

/-- Two addresses and the mask, the first byte of each being the lowest. -/
def twoAddrs : InetPton where
  pton s :=
    if s = "10.0.0.1".toList then some 0x0100000A#32
    else if s = "10.0.1.1".toList then some 0x0101000A#32
    else if s = "255.255.255.0".toList then some 0x00FFFFFF#32
    else none
  netmask := 0x00FFFFFF#32
  pton_netmask := by decide

end

end Libhp.Net
