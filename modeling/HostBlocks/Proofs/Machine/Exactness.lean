import HostBlocks.Proofs.Machine.Enumerators

/-!
# Words of 128 bits are wide enough

The addresses of a pool and the indexes of its blocks are below `2 ^ 128`, and so is everything that an
enumerator reckons with on its way. So a machine goes along with the enumerator whose numbers have no
end: each step of its arithmetic is exact, and none is a fault.
-/
namespace HostBlocks.Machine

structure Frame.Fits (f : Frame) (l : Layout) : Prop where
  family : f.family = l.pool.family
  base : f.base.toNat = l.pool.base
  last : f.last.toNat = l.pool.last
  length : f.length.toNat = l.length
  hostBits : f.hostBits.toNat = l.hostBits
  count : f.count.toNat = l.count

namespace Frame

theorem toNat_width (family : Family) : (BitVec.ofNat 8 family.width).toNat = family.width := by
  cases family <;> rfl

theorem toNat_length (n : Network) : (BitVec.ofNat 8 n.length).toNat = n.length := by
  have hle := n.length_le
  have hwidth := n.address.family.width_le
  exact Nat.mod_eq_of_lt (by omega)

theorem toNat_last (n : Network) : (BitVec.ofNat 128 n.last).toNat = n.last :=
  Nat.mod_eq_of_lt (Nat.lt_of_lt_of_le n.last_lt (Nat.pow_le_pow_right (by decide) n.family.width_le))

theorem toNat_base (n : Network) : (BitVec.ofNat 128 n.base).toNat = n.base := by
  have hlast := BitVec.toNat_lt_twoPow_of_le (x := BitVec.ofNat 128 n.last) (Nat.le_refl 128)
  rw [toNat_last] at hlast
  exact Nat.mod_eq_of_lt (Nat.lt_of_le_of_lt n.base_le_last hlast)

theorem invalid_iff (family : Family) (length : BitVec 8) :
    (length = 0 ∨ BitVec.ofNat 8 family.width < length) ↔
      ¬(0 < length.toNat ∧ length.toNat ≤ family.width) := by
  rw [BitVec.lt_def, toNat_width, ← BitVec.toNat_inj]
  simp only [BitVec.ofNat_eq_ofNat, BitVec.toNat_ofNat, Nat.zero_mod]
  omega

theorem tooSmall_iff (pool : Network) (length : BitVec 8) :
    length < BitVec.ofNat 8 pool.length ↔ ¬pool.length ≤ length.toNat := by
  rw [BitVec.lt_def, toNat_length, Nat.not_le]

/-- A pool that cannot be cut into blocks is refused as it is without words. -/
theorem of_eq_error {pool : Network} {length : BitVec 8} {e : SizeError}
    (h : Layout.of pool length.toNat = .error e) : of pool length = .ok (.error e) := by
  rw [Layout.of] at h
  rw [of]
  split at h
  · next hvalid =>
    have hvalid' := mt (invalid_iff pool.family length).1 (not_not_intro hvalid)
    split at h
    · next hfits =>
      have hfits' := mt (tooSmall_iff pool length).1 (not_not_intro hfits)
      obtain ⟨split, hsplit, hvalue⟩ := exists_sub length (BitVec.ofNat 8 pool.length)
        (by rwa [toNat_length])
      rw [toNat_length] at hvalue
      split at h
      · cases h
      · next hcountable =>
        cases h
        have hcountable' : 128 ≤ split.toNat := by rwa [hvalue, ← Nat.not_lt]
        simp only [if_neg hvalid', if_neg hfits', if_pos hcountable', bind, Except.bind, hsplit]
        rfl
    · next hfits =>
      cases h
      simp only [if_neg hvalid', if_pos ((tooSmall_iff pool length).2 hfits)]
      rfl
  · next hvalid =>
    cases h
    simp only [if_pos ((invalid_iff pool.family length).2 hvalid)]
    rfl

theorem exists_fits {pool : Network} {length : BitVec 8} {l : Layout}
    (h : Layout.of pool length.toNat = .ok l) :
    ∃ frame, of pool length = .ok (.ok frame) ∧ frame.Fits l := by
  obtain ⟨rfl, hlength⟩ := l.of_eq_ok_iff.1 h
  have hpos := l.length_pos
  have hle := l.length_le
  have hpool := l.pool_le
  have hlt := l.split_lt
  rw [hlength] at hpos hle hpool hlt
  have hvalid := mt (invalid_iff l.pool.family length).1 (not_not_intro ⟨hpos, hle⟩)
  have hfits := mt (tooSmall_iff l.pool length).1 (not_not_intro hpool)
  obtain ⟨split, hsplit, hsplitValue⟩ := exists_sub length (BitVec.ofNat 8 l.pool.length)
    (by rwa [toNat_length])
  obtain ⟨hostBits, hhost, hhostValue⟩ := exists_sub (BitVec.ofNat 8 l.pool.family.width)
    length (by rwa [toNat_width])
  rw [toNat_length] at hsplitValue
  rw [toNat_width] at hhostValue
  have hcountable : ¬128 ≤ split.toNat := by rwa [hsplitValue, Nat.not_le]
  refine ⟨⟨l.pool.family, .ofNat 128 l.pool.base, .ofNat 128 l.pool.last, length, hostBits,
    (1 : Word) <<< split.toNat⟩, ?_, rfl, toNat_base l.pool, toNat_last l.pool, hlength.symm, ?_, ?_⟩
  · simp only [of, if_neg hvalid, if_neg hfits, if_neg hcountable, bind, Except.bind, hsplit, hhost]
    rfl
  · rw [hhostValue, Layout.hostBits, hlength]
  · have hcount := l.count_lt
    rw [Layout.count, hlength] at hcount ⊢
    rw [BitVec.toNat_shiftLeft, hsplitValue, Nat.shiftLeft_eq, show (1 : Word).toNat = 1 from rfl,
      Nat.one_mul, Nat.mod_eq_of_lt hcount]

namespace Fits

variable {f : Frame} {l : Layout} (h : f.Fits l)

include h

theorem hostBits_lt : f.hostBits.toNat < 128 := by
  rw [h.hostBits]
  exact l.hostBits_lt

theorem blockAt {first : Word} {k : Nat} (hfirst : first.toNat = l.first k) (hk : k < l.count) :
    f.blockAt first = .ok (l.block k) := by
  obtain ⟨bits, hbits, hvalue⟩ := exists_narrow f.family.width first
    (by rw [hfirst, h.family]; exact l.first_lt hk)
  have hle : f.length.toNat ≤ f.family.width := by
    rw [h.length, h.family]
    exact l.length_le
  simp only [Frame.blockAt, bind, Except.bind, hbits, dif_pos hle]
  refine congrArg Except.ok (Network.ext (Address.ext h.family ?_) h.length)
  exact (hvalue.trans hfirst).trans (l.bits_block hk).symm

theorem block {index : Word} (hindex : index.toNat < l.count) :
    f.block index = .ok (l.block index.toNat) := by
  have hlast := f.last.isLt
  have hfirst := l.first_add_le hindex
  rw [h.last] at hlast
  rw [l.first_eq] at hfirst
  obtain ⟨offset, hoffset, hoffsetValue⟩ := exists_shiftLeft index h.hostBits_lt
    (by rw [h.hostBits]; omega)
  rw [h.hostBits] at hoffsetValue
  obtain ⟨first, hadd, hvalue⟩ := exists_add f.base offset
    (by rw [h.base, hoffsetValue]; omega)
  rw [h.base, hoffsetValue, ← l.first_eq] at hvalue
  simp only [Frame.block, bind, Except.bind, hoffset, hadd]
  exact h.blockAt hvalue hindex

end Fits

end Frame

namespace Walk

structure Along (w : Walk) (a : Ascending) : Prop where
  fits : w.frame.Fits a.layout
  cursor : w.cursor.map BitVec.toNat = a.cursor
  place : ∃ k, a = .after a.layout k

variable {w : Walk} {a : Ascending}

theorem along_start {f : Frame} {l : Layout} (h : f.Fits l) : (start f).Along (.start l) where
  fits := h
  cursor := congrArg some h.base
  place := ⟨0, Ascending.start_eq_after l⟩

namespace Along

variable (h : w.Along a)

include h

/-- The word that a walk stands at is the first address of a block. -/
theorem exists_index {current : Word} (hcurrent : w.cursor = some current) :
    ∃ k < a.layout.count, current.toNat = a.layout.first k ∧ a = .after a.layout k := by
  obtain ⟨k, hk⟩ := h.place
  have hcursor := h.cursor
  rw [hcurrent, hk, Ascending.after] at hcursor
  split at hcursor
  · next hlt => exact ⟨k, hlt, Option.some.inj hcursor, hk⟩
  · cases hcursor

theorem map_following {current size : Word} (hsize : size.toNat = 1 <<< a.layout.hostBits) :
    (w.following current size).map BitVec.toNat = a.following current.toNat := by
  have hlast := h.fits.last
  rw [following, Ascending.following, ← hsize]
  by_cases hover : current.uaddOverflow size
  · have hover' := hover
    rw [BitVec.uaddOverflow, decide_eq_true_eq] at hover'
    have := w.frame.last.isLt
    rw [if_pos hover, if_neg (by omega)]
    rfl
  · have hsum := BitVec.toNat_add_of_not_uaddOverflow hover
    rw [if_neg hover]
    simp only [BitVec.le_def, hsum, hlast]
    split
    · exact congrArg some hsum
    · rfl

theorem exists_next : ∃ found, w.next = .ok found ∧
    Option.Rel (fun p q => p.1 = q.1 ∧ p.2.Along q.2) found a.next := by
  have hcursor := h.cursor
  cases hw : w.cursor with
  | none =>
    rw [hw] at hcursor
    refine ⟨none, by rw [next, hw]; rfl, ?_⟩
    rw [Ascending.next, ← hcursor]
    exact .none
  | some current =>
    obtain ⟨k, hk, hfirst, ha⟩ := h.exists_index hw
    have hbits := a.layout.hostBits_lt
    obtain ⟨size, hsize, hvalue⟩ := exists_shiftLeft (1 : Word) h.fits.hostBits_lt
      (by
        rw [h.fits.hostBits, show (1 : Word).toNat = 1 from rfl, Nat.one_mul]
        exact Nat.pow_lt_pow_right (by decide) hbits)
    rw [h.fits.hostBits, ← Nat.shiftLeft_eq] at hvalue
    have hnext : a.next = some (a.layout.block k, .after a.layout (k + 1)) :=
      (congrArg Ascending.next ha).trans ((Ascending.next_after a.layout k).trans (if_pos hk))
    have hfollowing : (w.following current size).map BitVec.toNat =
        (Ascending.after a.layout (k + 1)).cursor := by
      rw [h.map_following hvalue, hfirst, ← Ascending.following_first a.layout hk, ← ha]
    refine ⟨some (a.layout.block k, ⟨w.frame, w.following current size⟩), ?_, ?_⟩
    · simp only [next, hw, bind, Except.bind, hsize, h.fits.blockAt hfirst hk]
      rfl
    · rw [hnext]
      exact .some ⟨rfl, h.fits, hfollowing, k + 1, rfl⟩

theorem hint_eq : w.hint = .ok a.hint := by
  have hcursor := h.cursor
  cases hw : w.cursor with
  | none =>
    rw [hw] at hcursor
    simp only [hint, hw, Ascending.hint, Ascending.remaining, ← hcursor]
    rfl
  | some current =>
    obtain ⟨k, hk, hfirst, ha⟩ := h.exists_index hw
    have hle := a.layout.first_add_le hk
    have hcount := a.layout.count_lt
    have hremaining : a.remaining = a.layout.count - k :=
      (congrArg Ascending.remaining ha).trans (Ascending.remaining_after a.layout k)
    have hreckoned : a.remaining = (w.frame.last.toNat - current.toNat) >>> a.layout.hostBits + 1 := by
      rw [Ascending.remaining, ← hcursor, hw, h.fits.last]
      rfl
    obtain ⟨rest, hrest, hrestValue⟩ := exists_sub w.frame.last current
      (by rw [h.fits.last, hfirst]; omega)
    obtain ⟨blocks, hblocks, hblocksValue⟩ := exists_shiftRight rest h.fits.hostBits_lt
    rw [h.fits.hostBits, hrestValue] at hblocksValue
    rw [← hblocksValue] at hreckoned
    have hone : (1 : Word).toNat = 1 := rfl
    obtain ⟨remaining, hadd, hvalue⟩ := exists_add blocks 1 (by omega)
    rw [hone, ← hreckoned] at hvalue
    simp only [hint, hw, bind, Except.bind, hrest, hblocks, hadd, hvalue]
    rfl

end Along

end Walk

namespace Deck

/-- The shuffle on a machine holds the words of the indexes that the other holds, all of them below the
count. -/
structure Along (d : Deck) (s : Shuffle) : Prop where
  fits : d.frame.Fits s.layout
  drawn : d.drawn.toNat = s.drawn
  drawn_le : s.drawn ≤ s.layout.count
  displaced : ∀ k : Word, (d.displaced[k]?).map BitVec.toNat = s.displaced[k.toNat]?
  ahead_lt : ∀ index ∈ s.ahead, index < s.layout.count

variable {d : Deck} {s : Shuffle}

theorem along_start {f : Frame} {l : Layout} (h : f.Fits l) : (start f).Along (.start l) where
  fits := h
  drawn := rfl
  drawn_le := Nat.zero_le _
  displaced k := by simp [start, Shuffle.start]
  ahead_lt := by
    rw [Shuffle.ahead_start]
    exact fun index => List.mem_range.1

namespace Along

variable (h : d.Along s)

include h

theorem held (k : Word) : (d.displaced[k]?.getD k).toNat = s.held k.toNat := by
  rw [Shuffle.held, ← h.displaced k]
  cases d.displaced[k]? <;> rfl

/-- A position is forgotten on both sides. -/
theorem erase (k : Word) : ((d.displaced.erase d.drawn)[k]?).map BitVec.toNat =
    (s.displaced.erase s.drawn)[k.toNat]? := by
  rw [Std.ExtTreeMap.getElem?_erase, Std.ExtTreeMap.getElem?_erase, ← h.drawn]
  simp only [Std.LawfulEqCmp.compare_eq_iff_eq, BitVec.toNat_inj]
  split
  · rfl
  · exact h.displaced k

/-- After a draw both stand alike if the positions that are then displaced are the same. -/
theorem along_take {j : Nat} (hj : s.drawn ≤ j) (hlt : j < s.layout.count) {drawn : Word}
    (hdrawn : drawn.toNat = s.drawn + 1) {displaced : Std.ExtTreeMap Word Word}
    (hdisplaced : ∀ k : Word, (displaced[k]?).map BitVec.toNat = (s.take j).2.displaced[k.toNat]?) :
    Along ⟨d.frame, drawn, displaced⟩ (s.take j).2 where
  fits := by
    rw [Shuffle.layout_take]
    exact h.fits
  drawn := by rw [hdrawn, Shuffle.drawn_take]
  drawn_le := by
    rw [Shuffle.drawn_take, Shuffle.layout_take]
    omega
  displaced := hdisplaced
  ahead_lt := by
    intro index hindex
    rw [Shuffle.layout_take]
    exact h.ahead_lt index ((Shuffle.take_perm hj hlt).mem_iff.1 (List.mem_cons_of_mem _ hindex))

theorem take {j : Word} (hj : s.drawn ≤ j.toNat) (hlt : j.toNat < s.layout.count) :
    ∃ index rest, d.take j = .ok (index, rest) ∧ index.toNat = (s.take j.toNat).1 ∧
      rest.Along (s.take j.toNat).2 := by
  have hone : (1 : Word).toNat = 1 := rfl
  have hcount := s.layout.count_lt
  obtain ⟨drawn, hadd, hdrawn⟩ := exists_add d.drawn 1 (by rw [h.drawn, hone]; omega)
  rw [h.drawn, hone] at hdrawn
  have hheld := h.held d.drawn
  rw [h.drawn] at hheld
  have hsame : j = d.drawn ↔ j.toNat = s.drawn := by rw [← BitVec.toNat_inj, h.drawn]
  by_cases hfirst : j.toNat = s.drawn
  · refine ⟨d.displaced[d.drawn]?.getD d.drawn, ⟨d.frame, drawn, d.displaced.erase d.drawn⟩, ?_, ?_,
      h.along_take hj hlt hdrawn fun k => ?_⟩
    · simp only [Deck.take, bind, Except.bind, hadd, if_pos (hsame.2 hfirst)]
      rfl
    · rw [hheld, Shuffle.index_take, hfirst]
    · rw [Shuffle.take, if_pos hfirst]
      exact h.erase k
  · refine ⟨(d.displaced.erase d.drawn)[j]?.getD j,
      ⟨d.frame, drawn, (d.displaced.erase d.drawn).insert j (d.displaced[d.drawn]?.getD d.drawn)⟩, ?_, ?_,
      h.along_take hj hlt hdrawn fun k => ?_⟩
    · simp only [Deck.take, bind, Except.bind, hadd, if_neg (mt hsame.1 hfirst)]
      rfl
    · have hne : d.drawn ≠ j := fun he => hfirst (hsame.1 he.symm)
      rw [Std.ExtTreeMap.getElem?_erase, if_neg (by simpa using hne), h.held, Shuffle.index_take]
    · rw [Shuffle.take, if_neg hfirst, Std.ExtTreeMap.getElem?_insert, Std.ExtTreeMap.getElem?_insert]
      simp only [Std.LawfulEqCmp.compare_eq_iff_eq, BitVec.toNat_inj]
      split
      · exact congrArg some hheld
      · exact h.erase k

theorem exists_next {σ : Type} (source : Source σ) (r : σ) : ∃ found, d.next source r = .ok found ∧
    Option.Rel (fun p q => p.1 = q.1 ∧ p.2.1.Along q.2.1 ∧ p.2.2 = q.2.2) found
      (s.nextFrom source r) := by
  have hdone : d.drawn = d.frame.count ↔ s.drawn = s.layout.count := by
    rw [← BitVec.toNat_inj, h.drawn, h.fits.count]
  by_cases hs : s.drawn = s.layout.count
  · refine ⟨none, if_pos (hdone.2 hs), ?_⟩
    rw [Shuffle.nextFrom, if_pos hs]
    exact .none
  · have hlt : s.drawn < s.layout.count := Nat.lt_of_le_of_ne h.drawn_le hs
    have hlt' : d.drawn.toNat < d.frame.count.toNat := by rwa [h.drawn, h.fits.count]
    have hposition : source.draw r d.drawn.toNat d.frame.count.toNat =
        source.draw r s.drawn s.layout.count := by rw [h.drawn, h.fits.count]
    have hj := source.le_draw r hlt
    have hjlt := source.draw_lt r hlt
    obtain ⟨index, rest, htake, hindex, hrest⟩ := h.take
      (j := .ofNatLT (source.draw r d.drawn.toNat d.frame.count.toNat).1
        (Nat.lt_trans (source.draw_lt r hlt') d.frame.count.isLt))
      (by rwa [BitVec.toNat_ofNatLT, hposition]) (by rwa [BitVec.toNat_ofNatLT, hposition])
    rw [BitVec.toNat_ofNatLT, hposition] at hindex hrest
    have hbelow : index.toNat < s.layout.count := by
      rw [hindex]
      exact h.ahead_lt _ ((Shuffle.take_perm hj hjlt).mem_iff.1 List.mem_cons_self)
    have hblock := h.fits.block hbelow
    rw [hindex] at hblock
    refine ⟨some (s.layout.block index.toNat, rest, (source.draw r s.drawn s.layout.count).2), ?_, ?_⟩
    · simp only [next, if_neg (mt hdone.1 hs), dif_pos hlt', bind, Except.bind, htake,
        h.fits.block hbelow]
      rw [hposition]
      rfl
    · rw [s.nextFrom_of_lt source r hlt, hindex]
      exact .some ⟨rfl, hrest, rfl⟩

theorem hint_eq : d.hint = .ok s.hint := by
  obtain ⟨remaining, hsub, hvalue⟩ := exists_sub d.frame.count d.drawn
    (by rw [h.drawn, h.fits.count]; exact h.drawn_le)
  rw [h.drawn, h.fits.count] at hvalue
  simp only [hint, bind, Except.bind, hsub, hvalue]
  rfl

end Along

end Deck

/-- However often an enumerator on a machine is asked for the next block and for the hint, and whatever
positions in range are drawn, no step of its arithmetic is a fault: it replies as the enumerator does
whose numbers have no end. The blocks that it finds have no host bits, and begin a multiple of their size
above the base of the pool and not above its last address. -/
theorem enumerators_never_fault (pool : Network) (length : BitVec 8) :
    (∀ e, Layout.of pool length.toNat = .error e → Frame.of pool length = .ok (.error e)) ∧
    ∀ l, Layout.of pool length.toNat = .ok l → ∃ frame, Frame.of pool length = .ok (.ok frame) ∧
      (∀ calls,
        let found := Enumerator.replies Ascending.next Ascending.hint calls (.start l)
        replies Walk.next Walk.hint calls (.start frame) = .ok found ∧
          ∀ cidr, .found (some cidr) ∈ found → cidr ∈ l.blocks) ∧
      (∀ {σ : Type} (source : Source σ) (r : σ) calls,
        let next (p : Shuffle × σ) := p.1.nextFrom source p.2
        let found := Enumerator.replies next (fun p => p.1.hint) calls (.start l, r)
        replies (fun p => p.1.next source p.2) (fun p => p.1.hint) calls (Deck.start frame, r) = .ok found ∧
          ∀ cidr, .found (some cidr) ∈ found → cidr ∈ l.blocks) ∧
      ∀ cidr ∈ l.blocks, cidr.trunc = cidr ∧ ∃ index < l.count,
        cidr.address.bits = pool.base + index <<< l.hostBits ∧ cidr.address.bits ≤ pool.last := by
  refine ⟨fun e => Frame.of_eq_error, fun l hl => ?_⟩
  obtain ⟨frame, hframe, hfits⟩ := Frame.exists_fits hl
  obtain ⟨rfl, -⟩ := l.of_eq_ok_iff.1 hl
  refine ⟨frame, hframe, fun calls => ⟨?_, ?_⟩, fun source r calls => ⟨?_, ?_⟩, ?_⟩
  · exact replies_eq_ok Walk.Along (fun w a h => h.exists_next) (fun w a h => h.hint_eq)
      (Walk.along_start hfits) calls
  · exact fun cidr => (Ascending.gives_start l).mem_of_found
  · refine replies_eq_ok (fun p q => p.1.Along q.1 ∧ p.2 = q.2) ?_ (fun p q h => h.1.hint_eq)
      ⟨Deck.along_start hfits, rfl⟩ calls
    rintro ⟨d, r⟩ ⟨s, -⟩ ⟨h, rfl⟩
    exact h.exists_next source r
  · intro cidr hcidr
    obtain ⟨order, hperm, hgives⟩ := Shuffle.exists_order_start source l r
    exact hperm.mem_iff.1 (hgives.mem_of_found hcidr)
  · intro cidr hcidr
    obtain ⟨index, hindex, rfl⟩ := (l.mem_blocks cidr).1 hcidr
    have hle := l.first_add_le hindex
    rw [l.bits_block hindex]
    exact ⟨l.trunc_block hindex, index, hindex, rfl, by omega⟩

/-- A pool that ends with the last address of all is walked to its end, and a pool of all addresses has
too many blocks of one address. -/
theorem enumerators_never_fault_at_end :
    let pool : Network := ⟨⟨.v6, 2 ^ 128 - 59, by decide⟩, 121, by decide⟩
    let l : Layout := ⟨pool, 123, by decide, by decide, by decide, by decide⟩
    let whole : Network := ⟨⟨.v6, 0, by decide⟩, 0, by decide⟩
    let calls : List Enumerator.Call := [.hint, .next, .next, .next, .next, .hint, .next]
    Layout.of pool 123 = .ok l ∧
      (∃ frame, Frame.of pool 123 = .ok (.ok frame) ∧
        replies Walk.next Walk.hint calls (.start frame) = .ok
          [.hint (4, some 4), .found (some (l.block 0)), .found (some (l.block 1)),
            .found (some (l.block 2)), .found (some (l.block 3)), .hint (0, some 0), .found none] ∧
        (∃ found, replies (fun p : Deck × Words => p.1.next Words.source p.2) (fun p => p.1.hint) calls
          (.start frame, .ofSeed 7) = .ok found) ∧
        (l.block 3).trunc = l.block 3) ∧
      Frame.of whole 128 = .ok (.error (.tooManyBlocks whole 128)) := by
  intro pool l whole calls
  have hl : Layout.of pool (123 : BitVec 8).toNat = .ok l := l.of_eq_ok_iff.2 ⟨rfl, rfl⟩
  obtain ⟨-, hcut⟩ := enumerators_never_fault pool 123
  obtain ⟨frame, hframe, hwalk, hdeck, hblocks⟩ := hcut l hl
  obtain ⟨hreplies, hfound⟩ := hwalk calls
  have hexact : Enumerator.replies Ascending.next Ascending.hint calls (.start l) =
      [.hint (4, some 4), .found (some (l.block 0)), .found (some (l.block 1)),
        .found (some (l.block 2)), .found (some (l.block 3)), .hint (0, some 0), .found none] := by
    have hcount : l.count = 4 := by
      show 2 ^ (123 - 121) = 4
      decide
    simp [calls, Enumerator.replies, Ascending.start_eq_after, Ascending.next_after, Ascending.hint,
      Ascending.remaining_after, sizeHint, hcount]
  rw [hexact] at hreplies hfound
  obtain ⟨hclear, -⟩ := hblocks _ (hfound (l.block 3) (by simp))
  obtain ⟨hrefused, -⟩ := enumerators_never_fault whole 128
  exact ⟨hl, ⟨frame, hframe, hreplies, ⟨_, (hdeck Words.source (.ofSeed 7) calls).1⟩, hclear⟩,
    hrefused _ rfl⟩

end HostBlocks.Machine
