import HostBlocks.Proofs.Interleaving.Contents

/-!
# The blocks of a store do not overlap

With one catalog and fixed settings, claims of free blocks come to aligned blocks of one length for
each family, whichever pools these are cut from. Pools may overlap, be listed twice or have host bits:
two blocks that have an address in common are one block, and one block has one record.
-/
namespace HostBlocks

def Operation.Allocates (settings : Settings) (catalog : Catalog) : Operation → Prop
  | claim (.free settings' catalog' _ _ _) _ _ => settings' = settings ∧ catalog' = catalog
  | claim (.block _) _ _ => False
  | release bound _ _ => bound = settings.releaseRounds

/-- A start of an operation of the allocator, a call of a task, or another call that leaves block
records alone. -/
def Event.Allocates (settings : Settings) (catalog : Catalog) : Event → Prop
  | .start operation => operation.Allocates settings catalog
  | .step _ => True
  | .serve request => request.change = none

instance (settings : Settings) (catalog : Catalog) :
    DecidablePred (Operation.Allocates settings catalog)
  | .claim (.free settings' catalog' _ _ _) _ _ =>
    inferInstanceAs (Decidable (settings' = settings ∧ catalog' = catalog))
  | .claim (.block _) _ _ => inferInstanceAs (Decidable False)
  | .release bound _ _ => inferInstanceAs (Decidable (bound = settings.releaseRounds))

instance (settings : Settings) (catalog : Catalog) : DecidablePred (Event.Allocates settings catalog)
  | .start operation => inferInstanceAs (Decidable (operation.Allocates settings catalog))
  | .step _ => inferInstanceAs (Decidable True)
  | .serve request => inferInstanceAs (Decidable (request.change = none))

/-- The block is one of those that an enabled pool of its family is cut into. -/
def Catalog.Offers (settings : Settings) (catalog : Catalog) (cidr : Network) : Prop :=
  ∃ configured, catalog = .ok configured ∧
    ∃ pool ∈ configured, pool.isEligible cidr.family ∧ Claim.IsBlockOf settings pool.cidr cidr

namespace Catalog

variable {settings : Settings} {catalog : Catalog} {cidr : Network}

theorem offers_of_mem_pools {family : Family} {requested : Option Network} {resolved : List Network}
    {pool : Network} (h : Claim.pools catalog family requested = .ok resolved)
    (hpool : pool ∈ resolved) (hblock : Claim.IsBlockOf settings pool cidr) :
    Offers settings catalog cidr := by
  obtain ⟨configured, hcatalog, p, hp, heligible, rfl⟩ := Claim.eligible_of_mem_pools family h hpool
  refine ⟨configured, hcatalog, p, hp, ?_, hblock⟩
  rw [Claim.family_of_isBlockOf h hpool hblock]
  exact heligible

theorem Offers.trunc_eq (h : Offers settings catalog cidr) : cidr.trunc = cidr := by
  obtain ⟨_, _, _, _, _, hblock⟩ := h
  exact hblock.trunc_eq

theorem Offers.length_eq (h : Offers settings catalog cidr) :
    cidr.length = settings.lengths.of cidr.family := by
  obtain ⟨_, _, _, _, _, hblock⟩ := h
  rw [hblock.fits.1]
  exact hblock.fits.2.1

/-- Blocks of one catalog that have an address in common are the same, whatever pools they come from. -/
theorem Offers.eq_of_contains {other : Network} {a : Address} (h : Offers settings catalog cidr)
    (hother : Offers settings catalog other) (ha : cidr.contains a) (ha' : other.contains a) :
    cidr = other := by
  have hfamily : cidr.family = other.family :=
    ((cidr.contains_iff a).1 ha).1.trans ((other.contains_iff a).1 ha').1.symm
  have hlength : cidr.length = other.length := by rw [h.length_eq, hother.length_eq, hfamily]
  rw [← h.trunc_eq, ← hother.trunc_eq]
  exact Network.trunc_eq_of_contains ha ha' hlength

end Catalog

/-- A claim of the allocator comes to blocks of its catalog only. -/
theorem Target.Starts.offers {settings : Settings} {catalog : Catalog} {target : Target}
    {host : String} {policy : Policy} {stage : Claim.Stage} (h : target.Starts host policy stage)
    (ht : (Operation.claim target host policy).Allocates settings catalog) :
    stage.All fun c => Catalog.Offers settings catalog c.trunc := by
  cases h with
  | block cidr => exact ht.elim
  | refused => trivial
  | @search _ _ words family requested pools hpools =>
    obtain ⟨rfl, rfl⟩ := ht
    apply Claim.Stage.all_search
    intro cidr hcidr
    obtain ⟨pool, hpool, hblock⟩ := (Claim.mem_candidates_iff _ words pools cidr).1 hcidr
    rw [hblock.trunc_eq]
    exact Catalog.offers_of_mem_pools hpools hpool hblock

theorem Event.Allocates.admits {settings : Settings} {catalog : Catalog} {e : Event}
    (h : e.Allocates settings catalog) :
    (Discipline.contents (Catalog.Offers settings catalog)).Admits e := by
  cases e with
  | start operation =>
    apply Discipline.contents_admits_start
    rintro target host policy stage rfl hstarts
    exact hstarts.offers h
  | step i => trivial
  | serve request => exact Discipline.contents_admits_serve h

namespace System

/-- Starting from nothing, claims of free blocks and releases leave blocks that do not overlap, each of
the length for its family, without host bits, and inside an enabled pool of its family. -/
theorem blocks_partition_pools (settings : Settings) (catalog : Catalog) (events : List Event)
    (h : ∀ e ∈ events, e.Allocates settings catalog) :
    let now := (System.of .empty).run events
    (∀ (p p' : String) (stored stored' : Versioned Block), now.store.blocks[p]? = some stored →
      now.store.blocks[p']? = some stored' → p ≠ p' →
        ∀ a, ¬(stored.value.cidr.contains a ∧ stored'.value.cidr.contains a)) ∧
    ∀ (p : String) (stored : Versioned Block), now.store.blocks[p]? = some stored →
      stored.value.cidr.length = settings.lengths.of stored.value.cidr.family ∧
      stored.value.cidr.trunc = stored.value.cidr ∧
      ∃ pools, catalog = .ok pools ∧ ∃ pool ∈ pools,
        pool.isEligible stored.value.cidr.family ∧ pool.cidr.includes stored.value.cidr := by
  intro now
  have hfiled : now.store.Filed := filed_run Store.filed_empty events
  have hempty : Store.empty.Holds (Catalog.Offers settings catalog) := by
    intro p stored hstored
    simp [Store.empty] at hstored
  have hkept : (Discipline.contents (Catalog.Offers settings catalog)).Kept now :=
    (Discipline.kept_of hempty).run events fun e he => (h e he).admits
  have hoffers : now.store.Holds (Catalog.Offers settings catalog) := hkept.1
  constructor
  · rintro p p' stored stored' hstored hstored' hne a ⟨ha, ha'⟩
    have hcidr := (hoffers p stored hstored).eq_of_contains (hoffers p' stored' hstored') ha ha'
    have hpath : stored.value.path = stored'.value.path := congrArg Block.pathOf hcidr
    rw [hfiled.blocks hstored, hfiled.blocks hstored'] at hpath
    exact hne hpath
  · intro p stored hstored
    have hoffer := hoffers p stored hstored
    refine ⟨hoffer.length_eq, hoffer.trunc_eq, ?_⟩
    obtain ⟨configured, hcatalog, pool, hpool, heligible, hblock⟩ := hoffer
    exact ⟨configured, hcatalog, pool, hpool, heligible, hblock.fits.2.2⟩

/-- Two overlapping pools, one of them with host bits. A race for one block is lost and made good from
the other pool, and a block that is on its way to be released is passed over. -/
theorem blocks_partition_pools_of_race :
    let narrow : Network := ⟨⟨.v4, 0x0A000080, by decide⟩, 25, by decide⟩
    let wide : Network := ⟨⟨.v4, 0x0A00004D, by decide⟩, 24, by decide⟩
    let settings : Settings := ⟨.standard, 3, .sequential⟩
    let catalog : Catalog := .ok [⟨narrow, false⟩, ⟨wide, true⟩, ⟨wide, false⟩]
    let claim (host : String) (requested : Option Network) : Operation :=
      .claim (.free settings catalog (fun _ => .cycle []) .v4 requested) host ⟨false⟩
    let events : List Event :=
      [.start (claim "first" none), .start (claim "second" none), .step 0, .step 1, .step 0, .step 0,
        .step 1, .step 1, .step 1, .step 1, .start (claim "second" (some wide)), .step 2, .step 2,
        .step 2, .start (.release 3 "first" ⟨⟨.v4, 0x0A000080, by decide⟩, 26, by decide⟩), .step 3,
        .start (claim "third" none), .step 4, .step 4, .step 3, .step 4, .step 4, .step 3]
    let blocks := ((System.of .empty).run events).store.blocks
    (∀ e ∈ events, e.Allocates settings catalog) ∧
      ∃ stored stored', blocks["/ipam/v2/assignment/ipv4/block/10-0-0-0-26"]? = some stored ∧
        blocks["/ipam/v2/assignment/ipv4/block/10-0-0-192-26"]? = some stored' ∧
        (stored.value.affinity = some "second" ∧ stored'.value.affinity = some "third") ∧
        ∀ a, ¬(stored.value.cidr.contains a ∧ stored'.value.cidr.contains a) := by
  intro narrow wide settings catalog claim events blocks
  have hallocates : ∀ e ∈ events, e.Allocates settings catalog := by decide +kernel
  have howners : blocks["/ipam/v2/assignment/ipv4/block/10-0-0-0-26"]?.map (·.value.affinity) =
        some (some "second") ∧
      blocks["/ipam/v2/assignment/ipv4/block/10-0-0-192-26"]?.map (·.value.affinity) =
        some (some "third") := by
    decide +kernel
  obtain ⟨hsecond, hthird⟩ := howners
  obtain ⟨stored, hstored, howner⟩ := Option.map_eq_some_iff.1 hsecond
  obtain ⟨stored', hstored', howner'⟩ := Option.map_eq_some_iff.1 hthird
  obtain ⟨hapart, -⟩ := blocks_partition_pools settings catalog events hallocates
  exact ⟨hallocates, stored, stored', hstored, hstored', ⟨howner, howner'⟩,
    hapart _ _ stored stored' hstored hstored' (by decide)⟩

end System

end HostBlocks
