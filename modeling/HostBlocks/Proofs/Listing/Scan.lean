import HostBlocks.Proofs.History.Changes

/-!
# Scans

Rows are in the order of their keys. The keys that begin with a given text stand together in that order
and none of them is below the text, so a scan from the text gives all of them. In a store whose records
stand under their own paths, a listing for one host is therefore as complete as one that looks at every
row.
-/
namespace HostBlocks

section

variable {α : Type} {p : α → Bool} {l : List α}

/-- On a list where each element has a property that a later one has, the first elements that have it
are all that have it. -/
theorem takeWhile_eq_filter (h : l.Pairwise fun x y => p y → p x) : l.takeWhile p = l.filter p := by
  induction l with
  | nil => rfl
  | cons x l ih =>
    obtain ⟨hx, hl⟩ := List.pairwise_cons.1 h
    by_cases hpx : p x
    · rw [List.takeWhile_cons_of_pos hpx, List.filter_cons_of_pos hpx, ih hl]
    · rw [List.takeWhile_cons_of_neg hpx, List.filter_cons_of_neg hpx, eq_comm, List.filter_eq_nil_iff]
      exact fun y hy hpy => hpx (hx y hy hpy)

theorem dropWhile_eq_filter (h : l.Pairwise fun x y => p y → p x) :
    l.dropWhile p = l.filter fun x => !p x := by
  induction l with
  | nil => rfl
  | cons x l ih =>
    obtain ⟨hx, hl⟩ := List.pairwise_cons.1 h
    by_cases hpx : p x
    · rw [List.dropWhile_cons_of_pos hpx, List.filter_cons_of_neg (by simpa using hpx), ih hl]
    · have hnone : ∀ y ∈ x :: l, !p y := by
        intro y hy
        rcases List.mem_cons.1 hy with rfl | hy
        · simpa using hpx
        · simpa using mt (hx y hy) hpx
      rw [List.dropWhile_cons_of_neg hpx, List.filter_eq_self.2 hnone]

end

/-- Between a text and a key that begins with it are only keys that begin with it. -/
theorem begins_of_between {front k k' : List Char} (hk : ¬k < front) (hlt : k < k')
    (h : front <+: k') : front <+: k := by
  induction front generalizing k k' with
  | nil => exact List.nil_prefix
  | cons c front ih =>
    obtain ⟨rest, rfl⟩ := h
    cases k with
    | nil => exact absurd (List.nil_lt_cons c front) hk
    | cons d k =>
      rw [List.cons_append, List.cons_lt_cons_iff] at hlt
      rw [List.cons_lt_cons_iff, not_or] at hk
      obtain hdc | ⟨rfl, hlt⟩ := hlt
      · exact absurd hdc hk.1
      · have hk' : ¬k < front := fun h => hk.2 ⟨rfl, h⟩
        exact (List.cons_prefix_cons).2 ⟨rfl, ih hk' hlt (List.prefix_append front rest)⟩

namespace Store

variable {α : Type} {front : String} {rows : List (String × α)}

/-- A scan of rows in the order of their keys finds every row whose key begins with the text. -/
theorem scan_eq_filter (h : rows.Pairwise fun x y => x.1 < y.1) :
    scan front rows = rows.filter fun row => front.toList.isPrefixOf row.1.toList := by
  have hbelow : rows.Pairwise fun x y => decide (y.1 < front) → decide (x.1 < front) := by
    refine h.imp fun hxy hy => ?_
    rw [decide_eq_true_eq] at hy ⊢
    exact String.lt_trans hxy hy
  have hfront : (rows.filter fun row => !decide (row.1 < front)).Pairwise fun x y =>
      front.toList.isPrefixOf y.1.toList → front.toList.isPrefixOf x.1.toList := by
    rw [List.pairwise_filter]
    refine h.imp fun hxy hx _ hy => ?_
    rw [List.isPrefixOf_iff_prefix] at hy ⊢
    rw [Bool.not_eq_true', decide_eq_false_iff_not, String.lt_iff] at hx
    exact begins_of_between hx (String.lt_iff.1 hxy) hy
  have hnot : ∀ row ∈ rows, (front.toList.isPrefixOf row.1.toList && !decide (row.1 < front)) =
      front.toList.isPrefixOf row.1.toList := by
    intro row _
    cases hrow : front.toList.isPrefixOf row.1.toList with
    | false => rfl
    | true =>
      rw [List.isPrefixOf_iff_prefix] at hrow
      have hle : ¬row.1 < front := mt String.lt_iff.1 hrow.le
      simp [hle]
  rw [scan, dropWhile_eq_filter hbelow, takeWhile_eq_filter hfront, List.filter_filter]
  exact List.filter_congr hnot

theorem pairwise_keys (m : Std.ExtTreeMap String α) :
    m.toList.Pairwise fun x y => x.1 < y.1 := by
  refine Std.ExtTreeMap.ordered_keys_toList.imp fun hxy => ?_
  exact compareOfLessAndEq_eq_lt.1 hxy

end Store

theorem Affinity.path_begins (a : Affinity) : (hostPath a.host).toList <+: a.path.toList := by
  rw [path, String.toList_append, String.toList_append, String.toList_append, List.append_assoc,
    List.append_assoc]
  exact List.prefix_append _ _

namespace Store

variable {s : Store}

theorem Filed.path_of_mem (h : s.Filed) {row : String × Versioned Affinity}
    (hrow : row ∈ s.affinities.toList) : row.2.value.path = row.1 :=
  h.affinities (Std.ExtTreeMap.mem_toList_iff_getElem?_eq_some.1 hrow)

/-- A listing is what a look at every record finds, also if it only scans the records of a host. -/
theorem Filed.listAffinities_eq (h : s.Filed) (f : AffinityFilter) :
    s.listAffinities f = (s.affinities.toList.map Prod.snd).filter fun v => f.accepts v.value := by
  cases hhost : f.host with
  | none => simp only [listAffinities, hhost]
  | some host =>
    simp only [listAffinities, hhost]
    rw [scan_eq_filter (pairwise_keys s.affinities), List.filter_map, List.filter_map,
      List.filter_filter]
    congr 1
    refine List.filter_congr fun row hrow => ?_
    cases haccepts : ((fun v => f.accepts v.value) ∘ Prod.snd) row with
    | false => rfl
    | true =>
      have hsame : host = row.2.value.host := ((f.accepts_iff _).1 haccepts).1 host hhost
      have hfront := row.2.value.path_begins
      rw [← hsame, h.path_of_mem hrow, ← List.isPrefixOf_iff_prefix] at hfront
      rw [hfront]
      rfl

theorem Filed.mem_listAffinities (h : s.Filed) (f : AffinityFilter) (v : Versioned Affinity) :
    v ∈ s.listAffinities f ↔ s.affinities[v.value.path]? = some v ∧ f.accepts v.value := by
  rw [h.listAffinities_eq, List.mem_filter, List.mem_map]
  apply and_congr_left
  intro _
  constructor
  · rintro ⟨row, hrow, rfl⟩
    rw [h.path_of_mem hrow]
    exact Std.ExtTreeMap.mem_toList_iff_getElem?_eq_some.1 hrow
  · intro hv
    exact ⟨(v.value.path, v), Std.ExtTreeMap.mem_toList_iff_getElem?_eq_some.2 hv, rfl⟩

/-- A listing is in the order of paths. -/
theorem Filed.ascending_listAffinities (h : s.Filed) (f : AffinityFilter) :
    (s.listAffinities f).Pairwise fun v w => v.value.path < w.value.path := by
  have hpaths : (s.affinities.toList.map Prod.snd).Pairwise fun v w => v.value.path < w.value.path := by
    rw [List.pairwise_map]
    refine (pairwise_keys s.affinities).imp_of_mem fun {x y} hx hy hxy => ?_
    rwa [h.path_of_mem hx, h.path_of_mem hy]
  rw [h.listAffinities_eq]
  exact hpaths.filter _

/-- No affinity is listed twice. -/
theorem Filed.nodup_listAffinities (h : s.Filed) (f : AffinityFilter) :
    ((s.listAffinities f).map Versioned.value).Nodup := by
  rw [List.Nodup, List.pairwise_map]
  refine (h.ascending_listAffinities f).imp fun {v w} hvw hvalue => ?_
  rw [hvalue] at hvw
  exact String.lt_irrefl _ hvw

/-- No block of a host is listed twice. -/
theorem Filed.nodup_cidrs (h : s.Filed) (host : String) (family : Option Family) :
    ((s.listAffinities ⟨some host, family⟩).map fun v => v.value.cidr).Nodup := by
  have hnodup := h.nodup_listAffinities ⟨some host, family⟩
  rw [List.Nodup, List.pairwise_map] at hnodup ⊢
  refine hnodup.imp_of_mem fun {v w} hv hw hne hcidr => hne ?_
  have hhost : ∀ v ∈ s.listAffinities ⟨some host, family⟩, host = v.value.host := fun v hv =>
    ((AffinityFilter.accepts_iff _ _).1 ((h.mem_listAffinities _ v).1 hv).2).1 host rfl
  have hsame := (hhost v hv).symm.trans (hhost w hw)
  cases hv' : v.value
  cases hw' : w.value
  simp_all

/-- After any calls, a listing for any filter is answered with the stored affinity records that the filter
accepts, each once and in the order of their paths. It is the list that a look at every record gives,
whatever the names of hosts are. -/
theorem listing_complete (calls : List Request) (f : AffinityFilter) :
    let s := empty.after calls
    let listed := s.listAffinities f
    s.answer (.listAffinities f) = (.ok listed, s) ∧
    listed = (s.affinities.toList.map Prod.snd).filter (fun v => f.accepts v.value) ∧
    (∀ v, v ∈ listed ↔ (∃ p : String, s.affinities[p]? = some v) ∧
      (∀ host ∈ f.host, v.value.host = host) ∧ ∀ family ∈ f.family, v.value.cidr.family = family) ∧
    listed.Nodup ∧
    listed.Pairwise fun v w => v.value.path < w.value.path := by
  intro s listed
  have h : s.Filed := filed_empty.after calls
  have hstored : ∀ v, s.affinities[v.value.path]? = some v ↔
      ∃ p : String, s.affinities[p]? = some v := by
    intro v
    constructor
    · intro hv
      exact ⟨_, hv⟩
    · rintro ⟨p, hv⟩
      rwa [h.affinities hv]
  refine ⟨rfl, h.listAffinities_eq f, fun v => ?_, ?_, h.ascending_listAffinities f⟩
  · rw [h.mem_listAffinities, AffinityFilter.accepts_iff, hstored]
    simp only [Affinity.family, eq_comm]
  · refine (h.ascending_listAffinities f).imp fun hvw => ?_
    rintro rfl
    exact String.lt_irrefl _ hvw

/-- The scan for a host also meets the records of hosts whose names go on with a slash. -/
example :
    let cidr : Network := ⟨⟨.v4, 0x0A000000, by decide⟩, 26, by decide⟩
    let s := empty.after (["ab", "a/x", "a", ""].map fun host => .createAffinity (.of host cidr))
    ((scan (Affinity.hostPath "a") s.affinities.toList).map fun row => row.2.value.host) = ["a", "a/x"] ∧
      s.listAffinities ⟨some "a", none⟩ = [⟨.of "a" cidr, .initial⟩] := by
  decide +kernel

end Store

end HostBlocks
