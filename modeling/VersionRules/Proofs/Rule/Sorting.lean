import Mathlib.Data.List.Basic
import Mathlib.Data.List.Pairwise
import VersionRules.Proofs.Rule.Reordering
import VersionRules.Proofs.Rule.TotalPreorder

/-!
# Sorting candidates

A ranking whose order of version strings is a total preorder sorts every list of candidates so that
none is preferred to one in front of it, and candidates of equal rank keep the order they had. Which
rank stands at which place of the sorted list depends on the candidates alone, and not on the order
they were given in: it is settled by how many of them are preferred to a candidate.

The best candidate is one of the leaders, those that none is preferred to. There can be several of
them, of equal rank, and then sorting and asking for the best do not choose the same one: the first
leader comes first in the sorted list, and the last leader is the best one.

## Main definitions

* `Ranking.BestFirst` — the lists in which no candidate is preferred to one in front of it
* `Ranking.peers` — the candidates of equal rank to one
* `Ranking.ahead` — how many candidates are preferred to one
* `Ranking.leaders` — the candidates that none is preferred to
* `Ranking.IsLastLeader` — the last one of them

## Main results

* `Ranking.bestFirst_sortBestFirst`, `Ranking.peers_sortBestFirst` — what has been sorted is in
  order, and candidates of equal rank are as they were
* `Ranking.BestFirst.sortBestFirst_eq` — what is in order stays as it is
* `Ranking.IsLastLeader.snoc`, `Ranking.isLastLeader_foldl` — the choice of the best candidate, step
  by step and as a whole
* `sortBestFirst_isStableSort` — what sorting does, and that the best candidate is one
* `sorted_first_and_best` — which of several leaders is chosen
* `sortBestFirst_of_perm` — the order that candidates are given in does not matter
-/

namespace VersionRules

open Std

variable {r : Ranking} {u v w : Candidate} {vs ws : List Candidate}

namespace Ranking

theorem Built.transCmp_compare (hr : r.Built) (horder : IsPreorder r.order) :
    TransCmp r.compare := by
  obtain ⟨rules, hrules⟩ := hr.exists_ofRules
  have := isPreorder_iff_transCmp.1 horder
  exact Ranking.transCmp_compare hrules

theorem exists_built_natural (rules : List String) (h : (ofRules .natural rules).isOk) :
    ∃ r, ofRules .natural rules = .ok r ∧ r.Built ∧ IsPreorder r.order := by
  obtain ⟨r, hr⟩ := exists_eq_ok_of_isOk h
  refine ⟨r, hr, .read hr, ?_⟩
  rw [order_of_ofRules hr]
  exact isPreorder_iff_transCmp.2 inferInstance

/-! ### What is sorted -/

/-- No candidate is preferred to one in front of it. -/
def BestFirst (r : Ranking) (vs : List Candidate) : Prop :=
  vs.Pairwise fun v w => (r.compare w v).isLE

theorem sortBestFirst_perm_self (r : Ranking) (vs : List Candidate) :
    (r.sortBestFirst vs).Perm vs :=
  List.mergeSort_perm vs _

theorem mem_sortBestFirst : v ∈ r.sortBestFirst vs ↔ v ∈ vs :=
  List.mem_mergeSort

section Sorted

variable [TransCmp r.compare]

theorem notPreferred_trans (u v w : Candidate) (huv : (r.compare v u).isLE)
    (hvw : (r.compare w v).isLE) : (r.compare w u).isLE :=
  TransCmp.isLE_trans hvw huv

theorem notPreferred_total (v w : Candidate) : (r.compare w v).isLE || (r.compare v w).isLE := by
  have hswap : r.compare w v = (r.compare v w).swap := OrientedCmp.eq_swap
  rw [hswap]
  cases r.compare v w <;> rfl

theorem bestFirst_sortBestFirst (vs : List Candidate) : r.BestFirst (r.sortBestFirst vs) :=
  List.pairwise_mergeSort notPreferred_trans notPreferred_total vs

end Sorted

/-- The sort is stable, so that candidates of equal rank keep their places as well. -/
theorem BestFirst.sortBestFirst_eq (h : r.BestFirst vs) : r.sortBestFirst vs = vs :=
  List.mergeSort_of_pairwise h

/-! ### Candidates of equal rank -/

/-- The candidates of a list that are of equal rank to `v`, in order. -/
def peers (r : Ranking) (v : Candidate) (vs : List Candidate) : List Candidate :=
  vs.filter fun w => r.compare v w == .eq

theorem mem_peers : w ∈ r.peers v vs ↔ w ∈ vs ∧ r.compare v w = .eq := by
  rw [peers, List.mem_filter, beq_iff_eq]

theorem peers_append (v : Candidate) (vs ws : List Candidate) :
    r.peers v (vs ++ ws) = r.peers v vs ++ r.peers v ws :=
  List.filter_append vs ws

theorem peers_cons_self [TransCmp r.compare] (v : Candidate) (vs : List Candidate) :
    r.peers v (v :: vs) = v :: r.peers v vs :=
  List.filter_cons_of_pos (beq_iff_eq.2 ReflCmp.compare_self)

/-- Candidates of equal rank keep their order. -/
theorem peers_sortBestFirst [TransCmp r.compare] (v : Candidate) (vs : List Candidate) :
    r.peers v (r.sortBestFirst vs) = r.peers v vs := by
  have hsorted : r.BestFirst (r.peers v vs) := by
    refine List.pairwise_of_forall_mem_list fun u hu w hw => ?_
    have hvu := (mem_peers.1 hu).2
    have hvw := (mem_peers.1 hw).2
    rw [TransCmp.eq_trans (OrientedCmp.eq_comm.1 hvw) hvu]
    rfl
  -- A part of the list that is in order already is a part of what is sorted.
  have hpart : (r.peers v vs).Sublist (r.sortBestFirst vs) :=
    List.sublist_mergeSort notPreferred_trans notPreferred_total hsorted List.filter_sublist
  have hpeers : (r.peers v vs).Sublist (r.peers v (r.sortBestFirst vs)) := by
    have hfilter := hpart.filter fun w => r.compare v w == .eq
    rwa [List.filter_eq_self.2 fun w hw => beq_iff_eq.2 (mem_peers.1 hw).2] at hfilter
  exact (hpeers.eq_of_length ((r.sortBestFirst_perm_self vs).filter _).length_eq.symm).symm

/-! ### The place of a candidate -/

/-- How many candidates of a list are preferred to `v`. -/
def ahead (r : Ranking) (vs : List Candidate) (v : Candidate) : Nat :=
  vs.countP fun u => r.compare u v == .gt

section Ahead

variable [TransCmp r.compare]

theorem ahead_le_ahead (h : (r.compare w v).isLE) : r.ahead vs v ≤ r.ahead vs w := by
  refine List.countP_mono_left fun u _ hu => ?_
  rw [beq_iff_eq] at hu ⊢
  exact TransCmp.gt_of_gt_of_isGE hu (OrientedCmp.isGE_iff_isLE.2 h)

/-- Whoever is preferred to `v` is preferred to what `v` is preferred to, and so is `v` itself. -/
theorem ahead_lt_ahead (hv : v ∈ vs) (h : r.compare v w = .gt) :
    r.ahead vs v < r.ahead vs w := by
  have hmono : ∀ u, (r.compare u v == .gt) = true → (r.compare u w == .gt) = true := by
    intro u hu
    rw [beq_iff_eq] at hu ⊢
    exact TransCmp.gt_trans hu h
  have hsub := List.monotone_filter_right vs hmono
  refine Nat.lt_of_le_of_ne (List.countP_mono_left fun u _ => hmono u) fun hcount => ?_
  -- If they were as many, they would be the same ones, and `v` would be preferred to itself.
  rw [ahead, ahead, List.countP_eq_length_filter, List.countP_eq_length_filter] at hcount
  have hmem : v ∈ vs.filter fun u => r.compare u w == .gt :=
    List.mem_filter.2 ⟨hv, beq_iff_eq.2 h⟩
  rw [← hsub.eq_of_length hcount, List.mem_filter, beq_iff_eq] at hmem
  cases hmem.2.symm.trans ReflCmp.compare_self

theorem compare_eq_of_ahead_eq (hv : v ∈ vs) (hw : w ∈ vs)
    (h : r.ahead vs v = r.ahead vs w) : r.compare v w = .eq := by
  cases hvw : r.compare v w with
  | eq => rfl
  | gt => exact absurd h (Nat.ne_of_lt (ahead_lt_ahead hv hvw))
  | lt => exact absurd h.symm (Nat.ne_of_lt (ahead_lt_ahead hw (OrientedCmp.gt_iff_lt.2 hvw)))

/-- Two lists of the same candidates that are in order have the same ranks at the same places. -/
theorem BestFirst.compare_getElem? (hvs : r.BestFirst vs) (hws : r.BestFirst ws) (h : vs.Perm ws)
    {i : Nat} (hv : vs[i]? = some v) (hw : ws[i]? = some w) : r.compare v w = .eq := by
  have hascend {us : List Candidate} (hus : r.BestFirst us) :
      (us.map (r.ahead vs)).Pairwise (· ≤ ·) :=
    hus.map (r.ahead vs) fun _ _ => ahead_le_ahead
  -- Unlike candidates, numbers that are equal in order are equal, so they are arranged in one way.
  have hahead : vs.map (r.ahead vs) = ws.map (r.ahead vs) :=
    (h.map (r.ahead vs)).eq_of_pairwise (fun _ _ _ _ => Nat.le_antisymm) (hascend hvs)
      (hascend hws)
  have hplace := congrArg (·[i]?) hahead
  simp only [List.getElem?_map, hv, hw, Option.map_some, Option.some.injEq] at hplace
  exact compare_eq_of_ahead_eq (List.mem_of_getElem? hv) (h.mem_iff.2 (List.mem_of_getElem? hw))
    hplace

/-- Two lists of the same candidates that are in order are the same if candidates of equal rank are
the same. -/
theorem BestFirst.eq_of_perm (hvs : r.BestFirst vs) (hws : r.BestFirst ws) (h : vs.Perm ws)
    (hties : ∀ v ∈ vs, ∀ w ∈ vs, r.compare v w = .eq → v = w) : vs = ws := by
  refine h.eq_of_pairwise ?_ hvs hws
  intro v w hv hw hwv hvw
  exact hties v hv w (h.mem_iff.2 hw) (OrientedCmp.isLE_antisymm hvw hwv)

end Ahead

/-! ### Leaders -/

/-- The candidates of a list that no other one is preferred to, in order. -/
def leaders (r : Ranking) (vs : List Candidate) : List Candidate :=
  vs.filter fun v => vs.all fun w => (r.compare w v).isLE

theorem mem_leaders : v ∈ r.leaders vs ↔ v ∈ vs ∧ ∀ w ∈ vs, (r.compare w v).isLE := by
  rw [leaders, List.mem_filter, List.all_eq_true]

/-- No candidate is preferred to `v`, and `v` is preferred to all candidates behind it. -/
def IsLastLeader (r : Ranking) (vs : List Candidate) (v : Candidate) : Prop :=
  ∃ before behind, vs = before ++ v :: behind ∧ (∀ u ∈ before, (r.compare u v).isLE) ∧
    ∀ u ∈ behind, r.compare u v = .lt

theorem IsLastLeader.mem (h : r.IsLastLeader vs v) : v ∈ vs := by
  obtain ⟨before, behind, rfl, -, -⟩ := h
  exact List.mem_append_right before List.mem_cons_self

section Leaders

variable [TransCmp r.compare]

/-- The leaders are the candidates of equal rank to any one of them. -/
theorem leaders_eq_peers (hv : v ∈ r.leaders vs) : r.leaders vs = r.peers v vs := by
  obtain ⟨hvs, hle⟩ := mem_leaders.1 hv
  refine List.filter_congr fun u hu => ?_
  rw [Bool.eq_iff_iff, List.all_eq_true, beq_iff_eq]
  constructor
  · intro hlead
    exact OrientedCmp.isLE_antisymm (hlead v hvs) (hle u hu)
  · intro heq w hw
    rw [← TransCmp.congr_right heq]
    exact hle w hw

/-- The first leader comes first in the sorted list. -/
theorem head?_sortBestFirst (vs : List Candidate) :
    (r.sortBestFirst vs).head? = (r.leaders vs).head? := by
  have hperm := r.sortBestFirst_perm_self vs
  have hsorted := bestFirst_sortBestFirst (r := r) vs
  have hpeers := fun v => peers_sortBestFirst (r := r) v vs
  cases hs : r.sortBestFirst vs with
  | nil =>
    rw [hs] at hperm
    rw [← hperm.nil_eq]
    rfl
  | cons v rest =>
    rw [hs] at hperm hsorted hpeers
    -- What comes first is a leader, and the leaders are in the same order in both lists.
    have hv : v ∈ r.leaders vs := by
      refine mem_leaders.2 ⟨hperm.mem_iff.1 List.mem_cons_self, fun w hw => ?_⟩
      rcases List.mem_cons.1 (hperm.mem_iff.2 hw) with rfl | hw
      · exact ReflCmp.isLE_rfl
      · exact List.rel_of_pairwise_cons hsorted hw
    rw [leaders_eq_peers hv, ← hpeers v, peers_cons_self]
    rfl

/-! ### The best candidate -/

theorem IsLastLeader.isLE (h : r.IsLastLeader vs v) : ∀ u ∈ vs, (r.compare u v).isLE := by
  obtain ⟨before, behind, rfl, hbefore, hbehind⟩ := h
  intro u hu
  rcases List.mem_append.1 hu with hu | hu
  · exact hbefore u hu
  rcases List.mem_cons.1 hu with rfl | hu
  · exact ReflCmp.isLE_rfl
  · rw [hbehind u hu]
    rfl

/-- One more candidate becomes the last leader unless the present one is preferred to it. -/
theorem IsLastLeader.snoc (h : r.IsLastLeader vs v) (w : Candidate) :
    r.IsLastLeader (vs ++ [w]) (r.better v w) := by
  rw [better]
  split
  · next hvw =>
    obtain ⟨before, behind, rfl, hbefore, hbehind⟩ := h
    refine ⟨before, behind ++ [w], List.append_assoc before (v :: behind) [w], hbefore, ?_⟩
    refine List.forall_mem_append.2 ⟨hbehind, List.forall_mem_singleton.2 ?_⟩
    exact OrientedCmp.gt_iff_lt.1 hvw
  · next hvw =>
    refine ⟨vs, [], rfl, fun u hu => ?_, nofun⟩
    exact TransCmp.isLE_trans (h.isLE u hu) (Ordering.isLE_iff_ne_gt.2 hvw)

theorem isLastLeader_foldl (h : r.IsLastLeader vs v) (ws : List Candidate) :
    r.IsLastLeader (vs ++ ws) (ws.foldl r.better v) := by
  induction ws generalizing vs v with
  | nil =>
    rw [List.append_nil]
    exact h
  | cons w ws ih =>
    rw [List.append_cons]
    exact ih (h.snoc w)

theorem isLastLeader_of_best? (h : r.best? vs = some v) : r.IsLastLeader vs v := by
  cases vs with
  | nil => cases h
  | cons w ws =>
    obtain rfl := Option.some.inj h
    exact isLastLeader_foldl ⟨[], [], rfl, nofun, nofun⟩ ws

theorem IsLastLeader.getLast?_leaders (h : r.IsLastLeader vs v) :
    (r.leaders vs).getLast? = some v := by
  have hv := mem_leaders.2 ⟨h.mem, h.isLE⟩
  rw [leaders_eq_peers hv]
  -- The leaders are the peers of `v`, and none of them stands behind it.
  obtain ⟨before, behind, rfl, -, hbehind⟩ := h
  have hnone : r.peers v behind = [] := by
    refine List.filter_eq_nil_iff.2 fun w hw heq => ?_
    cases (hbehind w hw).symm.trans (OrientedCmp.eq_comm.1 (beq_iff_eq.1 heq))
  rw [peers_append, peers_cons_self, hnone, List.getLast?_concat]

end Leaders

theorem best?_eq_none_iff : r.best? vs = none ↔ vs = [] := by
  cases vs with
  | nil => exact iff_of_true rfl rfl
  | cons v vs => exact iff_of_false nofun nofun

end Ranking

/-- **What sorting does.** The sorted list has the same candidates; no candidate is preferred to one
in front of it; and candidates of equal rank are in the order they were given in. There is a best
candidate unless the list is empty, and then it is one of the list that none is preferred to. -/
theorem sortBestFirst_isStableSort (hr : r.Built) (horder : IsPreorder r.order)
    (vs : List Candidate) :
    (r.sortBestFirst vs).Perm vs ∧
      (r.sortBestFirst vs).Pairwise (fun v w => r.compare w v ≠ .gt) ∧
      (∀ v, r.peers v (r.sortBestFirst vs) = r.peers v vs) ∧
      (r.best? vs = none ↔ vs = []) ∧
      ∀ v, r.best? vs = some v → v ∈ vs ∧ ∀ w ∈ vs, r.compare w v ≠ .gt := by
  have := hr.transCmp_compare horder
  refine ⟨r.sortBestFirst_perm_self vs, ?_, fun v => Ranking.peers_sortBestFirst v vs,
    Ranking.best?_eq_none_iff, ?_⟩
  · exact (Ranking.bestFirst_sortBestFirst (r := r) vs).imp Ordering.isLE_iff_ne_gt.1
  · intro v hv
    have hleader := Ranking.isLastLeader_of_best? hv
    exact ⟨hleader.mem, fun w hw => Ordering.isLE_iff_ne_gt.1 (hleader.isLE w hw)⟩

/-- Candidates of three ranks, with two of equal rank that differ. -/
theorem sortBestFirst_isStableSort_ties :
    ∃ r vs, Ranking.ofRules .natural ["TYPE:jar"] = .ok r ∧ r.Built ∧ IsPreorder r.order ∧
      vs = [.ofVersion "1.0", .ofVersion "2.0", .add (.ofVersion "1.0") .product ["EAP"],
        .add (.ofVersion "1.0") .type ["jar"]] ∧
      (r.sortBestFirst vs).Perm vs ∧
      r.peers (.ofVersion "1.0") (r.sortBestFirst vs) =
        [.ofVersion "1.0", .add (.ofVersion "1.0") .product ["EAP"]] := by
  obtain ⟨r, hr, hbuilt, horder⟩ :=
    Ranking.exists_built_natural ["TYPE:jar"] (by decide +kernel)
  obtain ⟨hperm, -, hpeers, -⟩ := sortBestFirst_isStableSort hbuilt horder
    [.ofVersion "1.0", .ofVersion "2.0", .add (.ofVersion "1.0") .product ["EAP"],
      .add (.ofVersion "1.0") .type ["jar"]]
  have heval : ∀ r, Ranking.ofRules .natural ["TYPE:jar"] = .ok r →
      r.peers (.ofVersion "1.0") [.ofVersion "1.0", .ofVersion "2.0",
        .add (.ofVersion "1.0") .product ["EAP"], .add (.ofVersion "1.0") .type ["jar"]] =
          [.ofVersion "1.0", .add (.ofVersion "1.0") .product ["EAP"]] := by
    decide +kernel
  exact ⟨r, _, hr, hbuilt, horder, rfl, hperm, (hpeers _).trans (heval r hr)⟩

/-- **Which of several leaders is chosen.** Of the candidates that none is preferred to, the first
one comes first in the sorted list, and the last one is the best candidate. The two are of equal
rank, and so the best candidate is the one that is sorted first exactly if they are the same. -/
theorem sorted_first_and_best (hr : r.Built) (horder : IsPreorder r.order)
    (vs : List Candidate) (hvs : vs ≠ []) :
    ∃ first last, (r.leaders vs).head? = some first ∧ (r.leaders vs).getLast? = some last ∧
      (r.sortBestFirst vs).head? = some first ∧ r.best? vs = some last ∧
      r.compare first last = .eq ∧
      (r.best? vs = (r.sortBestFirst vs).head? ↔ first = last) := by
  have := hr.transCmp_compare horder
  obtain ⟨last, hlast⟩ : ∃ last, r.best? vs = some last :=
    Option.ne_none_iff_exists'.1 (Ranking.best?_eq_none_iff.not.2 hvs)
  have hlastLeader := (Ranking.isLastLeader_of_best? hlast).getLast?_leaders
  have hmem := List.mem_of_getLast? hlastLeader
  obtain ⟨first, others, hleaders⟩ := List.exists_cons_of_ne_nil (List.ne_nil_of_mem hmem)
  have hfirst : (r.leaders vs).head? = some first := by rw [hleaders, List.head?_cons]
  have hsorted := (Ranking.head?_sortBestFirst vs).trans hfirst
  refine ⟨first, last, hfirst, hlastLeader, hsorted, hlast, ?_, ?_⟩
  · have hpeer := List.mem_of_mem_head? hfirst
    rw [Ranking.leaders_eq_peers hmem] at hpeer
    exact OrientedCmp.eq_comm.1 (Ranking.mem_peers.1 hpeer).2
  · rw [hlast, hsorted, Option.some.injEq]
    exact eq_comm

/-- Two candidates with the same version string, of which the rules name no tag. -/
theorem sorted_first_and_best_ties :
    ∃ r vs first last, Ranking.ofRules .natural [] = .ok r ∧ r.Built ∧ IsPreorder r.order ∧
      vs = [.add (.ofVersion "1.0") .type ["jar"], .add (.ofVersion "1.0") .type ["rpm"]] ∧
      vs ≠ [] ∧ (r.sortBestFirst vs).head? = some first ∧ r.best? vs = some last ∧
      r.compare first last = .eq := by
  obtain ⟨r, hr, hbuilt, horder⟩ :=
    Ranking.exists_built_natural [] (by decide +kernel)
  have hne := List.cons_ne_nil (Candidate.add (.ofVersion "1.0") .type ["jar"])
    [.add (.ofVersion "1.0") .type ["rpm"]]
  obtain ⟨first, last, -, -, hfirst, hlast, hties, -⟩ :=
    sorted_first_and_best hbuilt horder _ hne
  exact ⟨r, _, first, last, hr, hbuilt, horder, rfl, hne, hfirst, hlast, hties⟩

/-- Of two candidates that differ in a tag only, the first one is sorted first, and the second one
is the best. -/
theorem not_sorted_first_eq_best :
    ¬ ∀ r : Ranking, r.Built → IsPreorder r.order → ∀ vs, vs ≠ [] →
      r.best? vs = (r.sortBestFirst vs).head? := by
  intro h
  obtain ⟨r, hr, hbuilt, horder⟩ :=
    Ranking.exists_built_natural [] (by decide +kernel)
  have hsame := h r hbuilt horder
    [.add (.ofVersion "1.0") .type ["jar"], .add (.ofVersion "1.0") .type ["rpm"]]
    (List.cons_ne_nil _ _)
  have := hbuilt.transCmp_compare horder
  rw [Ranking.head?_sortBestFirst] at hsame
  have heval : ∀ r, Ranking.ofRules .natural [] = .ok r →
      r.best? [.add (.ofVersion "1.0") .type ["jar"], .add (.ofVersion "1.0") .type ["rpm"]] ≠
        (r.leaders [.add (.ofVersion "1.0") .type ["jar"],
          .add (.ofVersion "1.0") .type ["rpm"]]).head? := by
    decide +kernel
  exact heval r hr hsame

/-- **The order of the candidates does not matter.** Two lists of the same candidates are sorted so
that candidates at the same place are of equal rank; and they are sorted to the same list if no two
of the candidates are of equal rank. -/
theorem sortBestFirst_of_perm (hr : r.Built) (horder : IsPreorder r.order) (h : vs.Perm ws) :
    (r.sortBestFirst vs).length = (r.sortBestFirst ws).length ∧
      (∀ (i : Nat) v w, (r.sortBestFirst vs)[i]? = some v → (r.sortBestFirst ws)[i]? = some w →
        r.compare v w = .eq) ∧
      (vs.Pairwise (fun v w => r.compare v w ≠ .eq) →
        r.sortBestFirst vs = r.sortBestFirst ws) := by
  have := hr.transCmp_compare horder
  have hvs := Ranking.bestFirst_sortBestFirst (r := r) vs
  have hws := Ranking.bestFirst_sortBestFirst (r := r) ws
  have hperm : (r.sortBestFirst vs).Perm (r.sortBestFirst ws) :=
    (r.sortBestFirst_perm_self vs).trans (h.trans (r.sortBestFirst_perm_self ws).symm)
  refine ⟨hperm.length_eq, fun i v w hv hw => hvs.compare_getElem? hws hperm hv hw, ?_⟩
  intro hdistinct
  have : Symm fun v w => r.compare v w ≠ .eq := ⟨fun _ _ hne h => hne (OrientedCmp.eq_comm.1 h)⟩
  refine hvs.eq_of_perm hws hperm fun v hv w hw hties => ?_
  rw [Ranking.mem_sortBestFirst] at hv hw
  by_cases hvw : v = w
  · exact hvw
  · exact absurd hties (hdistinct.forall hv hw hvw)

/-- Two candidates of different rank, given in either order. -/
theorem sortBestFirst_of_perm_two :
    ∃ r v w, Ranking.ofRules .natural ["TYPE:jar"] = .ok r ∧ r.Built ∧ IsPreorder r.order ∧
      v = .add (.ofVersion "1.0") .type ["jar"] ∧ w = .ofVersion "2.0" ∧
      [v, w].Perm [w, v] ∧ [v, w].Pairwise (fun v w => r.compare v w ≠ .eq) ∧
      r.sortBestFirst [v, w] = r.sortBestFirst [w, v] := by
  obtain ⟨r, hr, hbuilt, horder⟩ :=
    Ranking.exists_built_natural ["TYPE:jar"] (by decide +kernel)
  have heval : ∀ r, Ranking.ofRules .natural ["TYPE:jar"] = .ok r →
      [.add (.ofVersion "1.0") .type ["jar"], .ofVersion "2.0"].Pairwise
        (fun v w => r.compare v w ≠ .eq) := by
    decide +kernel
  have hdistinct := heval r hr
  have hperm := List.Perm.swap (Candidate.ofVersion "2.0")
    (.add (.ofVersion "1.0") .type ["jar"]) []
  exact ⟨r, _, _, hr, hbuilt, horder, rfl, rfl, hperm, hdistinct,
    (sortBestFirst_of_perm hbuilt horder hperm).2.2 hdistinct⟩

end VersionRules
