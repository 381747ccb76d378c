import HostBlocks.Address.Text
import HostBlocks.Proofs.Names.Words

/-!
# Reading what was written

Both grammars read octets and groups as they are written, compressed or not, and leave the text after
them. A list of groups goes on as long as another group can begin, so that text has to be one in which
none does. Where there is no dot, no dotted end is found.
-/
namespace HostBlocks

/-- What is read as the first of the families that read the whole of a text. -/
theorem whole_families {α : Type} (read : Family → Option (α × List Char)) {f : Family} {a : α}
    (h : read f = some (a, [])) (hv4 : f = .v6 → read .v4 = none) :
    (whole (read .v4) <|> whole (read .v6)) = some a := by
  cases f with
  | v4 =>
    rw [h]
    rfl
  | v6 =>
    rw [h, hv4 rfl]
    rfl

namespace Address

/-- A list of numbers: the first, and each of the others after a mark. -/
theorem intercalate_map_cons (m : Char) (write : Nat → List Char) (n : Nat) (ns : List Nat) :
    [m].intercalate ((n :: ns).map write) = write n ++ ns.flatMap fun n => m :: write n := by
  induction ns generalizing n with
  | nil => simp
  | cons n' ns ih =>
    rw [List.map_cons, List.map_cons, List.intercalate_cons_cons, ← List.map_cons, ih,
      List.flatMap_cons, List.append_assoc]
    rfl

theorem mem_intercalate_toDigits {m : Char} {b : Nat} {ns : List Nat} {c : Char}
    (h : c ∈ [m].intercalate (ns.map (Nat.toDigits b))) : c = m ∨ ∃ n, c ∈ Nat.toDigits b n := by
  cases ns with
  | nil => cases h
  | cons n ns =>
    rw [intercalate_map_cons, List.mem_append, List.mem_flatMap] at h
    rcases h with h | ⟨n', -, h⟩
    · exact Or.inr ⟨n, h⟩
    · rw [List.mem_cons] at h
      exact h.imp_right fun h => ⟨n', h⟩

theorem dot_not_mem_writeGroups (gs : List Nat) : '.' ∉ writeGroups gs := by
  intro h
  rcases mem_intercalate_toDigits h with h | ⟨n, h⟩
  · cases h
  · exact absurd (StorageName.isWord_toDigits (by decide) n '.' h).1 (by decide)

end Address

namespace Grammar

open Numeral Address

theorem readMark_eq_some_iff {m : Char} {s t : List Char} :
    readMark m s = some t ↔ s = m :: t := by
  cases s with
  | nil => simp [readMark]
  | cons c s => simp [readMark]

@[simp] theorem readMark_cons (m : Char) (s : List Char) : readMark m (m :: s) = some s :=
  readMark_eq_some_iff.2 rfl

variable (g : Grammar)

theorem suffix_of_readOctet {s rest : List Char} {o : Nat} (h : g.readOctet s = some (o, rest)) :
    rest <:+ s := by
  rw [readOctet] at h
  split at h
  · cases h
  · exact suffix_of_read h

theorem readDotted_of_no_dot {s : List Char} (h : '.' ∉ s) : g.readDotted s = none := by
  rw [readDotted]
  cases hoctet : g.readOctet s with
  | none => rfl
  | some p =>
    obtain ⟨o, rest⟩ := p
    have hmark : readMark '.' rest = none := by
      apply Option.eq_none_iff_forall_ne_some.2
      intro t ht
      rw [readMark_eq_some_iff] at ht
      subst ht
      exact h ((g.suffix_of_readOctet hoctet).mem List.mem_cons_self)
    simp [readOctets, hmark]

theorem length_of_zero_led : ∀ o < 256, (Nat.toDigits 10 o).head? = some '0' →
    (Nat.toDigits 10 o).length = 1 := by
  decide +kernel

theorem readOctet_toDigits {o : Nat} (ho : o < 256) {rest : List Char} (hrest : NoDigit 10 rest) :
    g.readOctet (Nat.toDigits 10 o ++ rest) = some (o, rest) := by
  have hplaces : (Nat.toDigits 10 o).length ≤ 3 :=
    (Nat.length_toDigits_le_iff (by decide) (by decide)).2 (by omega)
  rw [readOctet, if_neg, read_toDigits (by decide) (by decide) hplaces ho hrest]
  obtain ⟨ds, hds, hlt, -⟩ := exists_digits (b := 10) (by decide) o
  have hlength : ds.length = (Nat.toDigits 10 o).length := by rw [hds, List.length_map]
  have hhead : (Nat.toDigits 10 o ++ rest).head? = (Nat.toDigits 10 o).head? := by
    rw [List.head?_append, List.head?_eq_some_head Nat.toDigits_ne_nil, Option.some_or]
  have htake : takeDigits 10 (Nat.toDigits 10 o ++ rest) = (ds, rest) := by
    rw [hds, takeDigits_digitChar (by decide) hlt hrest]
  rw [hhead, htake]
  intro h
  simp only [Bool.and_eq_true, decide_eq_true_eq] at h
  have := length_of_zero_led o ho h.1.2
  omega

theorem noDigit_mark {b : Nat} {m : Char} (hm : digit? b m = none) (s : List Char) :
    NoDigit b (m :: s) := by
  intro c hc
  cases hc
  exact hm

/-- Where numbers follow after marks, or nothing more than the rest, no numeral goes on. -/
theorem noDigit_marked {b : Nat} {m : Char} (hm : digit? b m = none) (write : Nat → List Char)
    (ns : List Nat) {rest : List Char} (hrest : NoDigit b rest) :
    NoDigit b ((ns.flatMap fun n => m :: write n) ++ rest) := by
  cases ns with
  | nil => exact hrest
  | cons n ns => exact noDigit_mark hm _

theorem readOctets_written {os : List Nat} (h : ∀ o ∈ os, o < 256) (n : Nat) {rest : List Char}
    (hrest : NoDigit 10 rest) :
    g.readOctets os.length n ((os.flatMap fun o => '.' :: Nat.toDigits 10 o) ++ rest) =
      some (os.foldl (fun n o => n * 256 + o) n, rest) := by
  induction os generalizing n with
  | nil => rfl
  | cons o os ih =>
    have hnext := noDigit_marked (b := 10) (m := '.') rfl (Nat.toDigits 10) os hrest
    have hoctet := g.readOctet_toDigits (h o List.mem_cons_self) hnext
    simp only [List.length_cons, readOctets, List.flatMap_cons, List.cons_append, List.append_assoc,
      readMark_cons, Option.bind_eq_bind, Option.bind_some, hoctet]
    exact ih (fun o ho => h o (List.mem_cons_of_mem _ ho)) _

theorem readDotted_writeOctets (os : List Nat) (hlen : os.length = 4) (h : ∀ o ∈ os, o < 256)
    {rest : List Char} (hrest : NoDigit 10 rest) :
    g.readDotted (writeOctets os ++ rest) = some (value 256 os, rest) := by
  cases os with
  | nil => cases hlen
  | cons o os =>
    have hnext := noDigit_marked (b := 10) (m := '.') rfl (Nat.toDigits 10) os hrest
    have hoctet := g.readOctet_toDigits (h o List.mem_cons_self) hnext
    have hoctets := g.readOctets_written (fun o ho => h o (List.mem_cons_of_mem _ ho)) o hrest
    have hcount : os.length = 3 := Nat.succ.inj hlen
    rw [hcount] at hoctets
    rw [writeOctets, intercalate_map_cons, List.append_assoc, readDotted, hoctet]
    simp only [Option.bind_eq_bind, Option.bind_some, hoctets, value, List.foldl_cons, Nat.zero_mul,
      Nat.zero_add]

def listed (first : Bool) (gs : List Nat) : List Char :=
  if first then writeGroups gs else gs.flatMap fun n => ':' :: Nat.toDigits 16 n

/-- No group begins at the front of the text, neither there nor after a colon. -/
def NoGroup (s : List Char) : Prop := ∀ first t, skipColon first s = some t → NoDigit 16 t

theorem skipColon_listed (first : Bool) (n : Nat) (gs : List Nat) (rest : List Char) :
    skipColon first (listed first (n :: gs) ++ rest) =
      some (Nat.toDigits 16 n ++ (listed false gs ++ rest)) := by
  cases first with
  | true =>
    have hcons : listed true (n :: gs) = Nat.toDigits 16 n ++ listed false gs :=
      intercalate_map_cons ':' (Nat.toDigits 16) n gs
    rw [hcons, List.append_assoc]
    rfl
  | false => simp [skipColon, listed]

theorem suffix_of_skipColon {first : Bool} {s t : List Char} (h : skipColon first s = some t) :
    t <:+ s := by
  cases first with
  | true =>
    cases h
    exact List.suffix_refl _
  | false =>
    rw [readMark_eq_some_iff.1 h]
    exact List.suffix_cons ':' t

theorem dot_not_mem_listed (first : Bool) (gs : List Nat) : '.' ∉ listed first gs := by
  cases first with
  | true => exact dot_not_mem_writeGroups gs
  | false =>
    have h := dot_not_mem_writeGroups (0 :: gs)
    rw [writeGroups, intercalate_map_cons, List.mem_append, not_or] at h
    exact h.2

theorem readDotted_after_colon {first : Bool} {s : List Char} (h : '.' ∉ s) :
    (skipColon first s).bind g.readDotted = none := by
  cases hskip : skipColon first s with
  | none => rfl
  | some t => exact g.readDotted_of_no_dot fun ht => h ((suffix_of_skipColon hskip).mem ht)

theorem readGroups_of_noGroup {s : List Char} (hdot : '.' ∉ s) (hs : NoGroup s) (places : Nat)
    (first : Bool) : g.readGroups places first s = ⟨[], false, s⟩ := by
  cases places with
  | zero => rfl
  | succ places =>
    have hread : (skipColon first s).bind (Numeral.read 16 4 65536) = none := by
      cases hskip : skipColon first s with
      | none => rfl
      | some t => exact read_of_noDigit (hs first t hskip)
    rw [readGroups, g.readDotted_after_colon hdot, ite_self, hread]

theorem readGroups_listed {gs : List Nat} (hlt : ∀ n ∈ gs, n < 65536) {rest : List Char}
    (hdot : '.' ∉ rest) (hrest : NoGroup rest) {places : Nat} (hplaces : gs.length ≤ places)
    (first : Bool) : g.readGroups places first (listed first gs ++ rest) = ⟨gs, false, rest⟩ := by
  induction gs generalizing places first with
  | nil =>
    have hnil : listed first [] = [] := by cases first <;> rfl
    rw [hnil, List.nil_append]
    exact g.readGroups_of_noGroup hdot hrest places first
  | cons n gs ih =>
    cases places with
    | zero => cases hplaces
    | succ places =>
      have hn := hlt n List.mem_cons_self
      have hmore := ih (fun n hn => hlt n (List.mem_cons_of_mem _ hn))
        (Nat.le_of_succ_le_succ hplaces) false
      have hdotted : '.' ∉ listed first (n :: gs) ++ rest := by
        rw [List.mem_append, not_or]
        exact ⟨dot_not_mem_listed first _, hdot⟩
      have hnext : NoDigit 16 (listed false gs ++ rest) :=
        noDigit_marked rfl (Nat.toDigits 16) gs (hrest true rest rfl)
      have hwidth : (Nat.toDigits 16 n).length ≤ 4 :=
        (Nat.length_toDigits_le_iff (by decide) (by decide)).2 hn
      have hread := read_toDigits (by decide) (by decide) hwidth hn hnext
      rw [readGroups, g.readDotted_after_colon hdotted, ite_self, skipColon_listed, Option.bind_some,
        hread]
      simp only [hmore]

theorem noGroup_colons (s : List Char) : NoGroup (':' :: ':' :: s) := by
  intro first t h
  cases first <;> cases h <;> exact noDigit_mark rfl _

/-- Text that may stand after an address: nothing, or a slash and what follows it, without a dot. -/
structure IsEnd (s : List Char) : Prop where
  slash : ∀ c ∈ s.head?, c = '/'
  no_dot : '.' ∉ s

theorem isEnd_nil : IsEnd [] where
  slash := by simp
  no_dot := List.not_mem_nil

theorem IsEnd.noDigit {s : List Char} (h : IsEnd s) (b : Nat) : NoDigit b s := by
  intro c hc
  rw [h.slash c hc]
  simp [digit?]

theorem IsEnd.noGroup {s : List Char} (h : IsEnd s) : NoGroup s := by
  intro first t hskip
  cases first with
  | true =>
    cases hskip
    exact h.noDigit 16
  | false =>
    rw [readMark_eq_some_iff.1 hskip] at h
    cases h.slash ':' rfl

/-- Eight groups are read with no gap between them. -/
theorem readColons_full {gs : List Nat} (hlen : gs.length = 8) (hlt : ∀ n ∈ gs, n < 65536)
    {rest : List Char} (hrest : IsEnd rest) :
    g.readColons (writeGroups gs ++ rest) = some (value 65536 gs, rest) := by
  have hfront : g.readGroups 8 true (writeGroups gs ++ rest) = ⟨gs, false, rest⟩ :=
    g.readGroups_listed hlt hrest.no_dot hrest.noGroup (Nat.le_of_eq hlen) true
  simp only [readColons, hfront, if_pos hlen]

/-- The groups on both sides of two colons are read, and zeros fill the gap. -/
theorem readColons_gap (front back : List Nat) (hless : front.length + back.length < 8)
    (hgap : front.length + back.length + g.leastGap ≤ 8)
    (hfront : ∀ n ∈ front, n < 65536) (hback : ∀ n ∈ back, n < 65536)
    {rest : List Char} (hrest : IsEnd rest) :
    g.readColons (writeGroups front ++ ':' :: ':' :: (writeGroups back ++ rest)) =
      some (value 65536 (fillGap front back), rest) := by
  have hdot : '.' ∉ ':' :: ':' :: (writeGroups back ++ rest) := by
    simp [dot_not_mem_writeGroups, hrest.no_dot]
  have hreadFront :
      g.readGroups 8 true (writeGroups front ++ ':' :: ':' :: (writeGroups back ++ rest)) =
        ⟨front, false, ':' :: ':' :: (writeGroups back ++ rest)⟩ :=
    g.readGroups_listed hfront hdot (noGroup_colons _) (by omega) true
  have hreadBack : g.readGroups (8 - front.length - g.leastGap) true (writeGroups back ++ rest) =
      ⟨back, false, rest⟩ :=
    g.readGroups_listed hback hrest.no_dot hrest.noGroup (by omega) true
  have hshort : front.length ≠ 8 := by omega
  simp only [readColons, hreadFront, if_neg hshort, Bool.false_eq_true, if_false, readMark_cons,
    Option.bind_eq_bind, Option.bind_some, hreadBack]

/-- A text of eight groups is read, whichever run of zeros was left out. -/
theorem readColons_spelling (hg : g.leastGap ≤ 2) {gs : List Nat} {s : List Char} (h : Spells gs s)
    (hlt : ∀ n ∈ gs, n < 65536) {rest : List Char} (hrest : IsEnd rest) :
    g.readColons (s ++ rest) = some (value 65536 gs, rest) := by
  cases h with
  | full hlen => exact g.readColons_full hlen hlt hrest
  | @gap front back size hsize hlen =>
    have hfilled : fillGap front back = front ++ List.replicate size 0 ++ back := by
      have hcount : 8 - front.length - back.length = size := by omega
      rw [fillGap, hcount]
    have hread := g.readColons_gap front back (by omega) (by omega)
      (fun n hn => hlt n (by simp [hn])) (fun n hn => hlt n (by simp [hn])) hrest
    rw [hfilled] at hread
    rw [List.append_assoc]
    exact hread

end Grammar

end HostBlocks
