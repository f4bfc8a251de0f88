import Fwdelta.Cli.Diff
import Fwdelta.Cli.Json
import Fwdelta.Cli.Terms
import Fwdelta.Engine.Count

/-
The machine-readable listing of a delta.

Every attribution cell is enumerated and every rectangle becomes an entry: the
terms of its dimensions, its size, and the rules that decide it on both sides.
The listing is exact where every text stands for one interface, and nowhere else:
a name that is written like a placeholder makes an entry speak of other packets.
-/

namespace Fwdelta.Cli

open DecisionDiagram
open DecisionDiagram.Library
open DecisionDiagram.PathLibrary

/-! ### Entries -/

def termsJson (terms : Option (List String)) : Json :=
  Json.opt (terms.map (fun list => .arr (list.map Json.str)))

/-- One rectangle of the listing, as it is printed. -/
structure Entry where
  was : String
  now : String
  src : Option (List String)
  dst : Option (List String)
  sport : Option (List String)
  dport : Option (List String)
  proto : Option (List String)
  iif : Option (List String)
  oif : Option (List String)
  packets : Nat
  deriving DecidableEq

def regionEntry (syms : SymbolTable) (was now : Decider) (r : Region) : Entry where
  was := was.text
  now := now.text
  src := addrTerms r.srcAddr
  dst := addrTerms r.dstAddr
  sport := rangeTerms r.srcPort
  dport := rangeTerms r.dstPort
  proto := rangeTerms r.proto
  iif := ifaceTerms r.ifIn syms
  oif := ifaceTerms r.ifOut syms
  packets := r.count

def Entry.json (e : Entry) : Json :=
  .obj [
    ("was", .str e.was),
    ("now", .str e.now),
    ("src", termsJson e.src),
    ("dst", termsJson e.dst),
    ("sport", termsJson e.sport),
    ("dport", termsJson e.dport),
    ("proto", termsJson e.proto),
    ("iif", termsJson e.iif),
    ("oif", termsJson e.oif),
    ("packets", .big e.packets)]

/-! ### The listing -/

structure Listing where
  packets : Nat
  flows : Nat
  entries : List Entry
  complete : Bool
  deriving DecidableEq

def Listing.json (l : Listing) : Json :=
  .obj [
    ("packets", .big l.packets),
    ("flows", .big l.flows),
    ("entries", .arr (l.entries.map Entry.json)),
    ("complete", .bool l.complete)]

/-- No display cap: the largest machine integer. -/
def listingOptions : EnumOptions :=
  { EnumOptions.default with maxRegions := Text.U64_MAX }

def LISTING_CELLS : Nat := 4096

section Delta

variable {B : Type} [PathLibrary HEADER_BITS B]

def deltaListing (layout : Layout) (syms : SymbolTable) (base head : ChainModel B) (set : B) :
    Listing :=
  let attributed := attributeDelta base head set LISTING_CELLS
  { packets := exactCardinality set
    flows := layout.flowCount set
    entries := attributed.1.flatMap (fun cell =>
      (enumerate layout cell.set listingOptions).regions.map
        (regionEntry syms cell.was cell.now))
    complete := !attributed.2 &&
      !attributed.1.any (fun cell => (enumerate layout cell.set listingOptions).incomplete) }

def deltaJson (layout : Layout) (syms : SymbolTable) (base head : ChainModel B) (set : B) :
    Json :=
  (deltaListing layout syms base head set).json

end Delta

/-! ### What an entry denotes -/

/-- The packets of an entry: every dimension is unconstrained or lists a term for
the packet's value. -/
structure Entry.Holds (syms : SymbolTable) (e : Entry) (p : Packet) : Prop where
  src : Listed (InBlock p.src.toNat) e.src
  dst : Listed (InBlock p.dst.toNat) e.dst
  sport : Listed (InRange p.sport.toNat) e.sport
  dport : Listed (InRange p.dport.toNat) e.dport
  proto : Listed (InRange p.proto.toNat) e.proto
  iif : Listed (PrintedAs syms p.iif.toNat) e.iif
  oif : Listed (PrintedAs syms p.oif.toNat) e.oif

/-- An entry denotes the packets whose header is in the rectangle, with interfaces that
are printed like those of the rectangle. -/
theorem holds_regionEntry (syms : SymbolTable) (was now : Decider) (r : Region) (p : Packet) :
    (regionEntry syms was now r).Holds syms p ↔
      ∃ iif oif : BitVec 8, ifaceTerm syms iif.toNat = ifaceTerm syms p.iif.toNat ∧
        ifaceTerm syms oif.toNat = ifaceTerm syms p.oif.toNat ∧
          r.Holds ({ p with iif := iif, oif := oif } : Packet).value := by
  have src := listed_addrTerms r.srcAddr (p.value_le_domainMax .srcAddr)
  have dst := listed_addrTerms r.dstAddr (p.value_le_domainMax .dstAddr)
  have sport := listed_rangeTerms r.srcPort (p.value_le_domainMax .srcPort)
  have dport := listed_rangeTerms r.dstPort (p.value_le_domainMax .dstPort)
  have proto := listed_rangeTerms r.proto (p.value_le_domainMax .proto)
  have iif := listed_ifaceTerms r.ifIn syms (p.value_le_domainMax .ifIn)
  have oif := listed_ifaceTerms r.ifOut syms (p.value_le_domainMax .ifOut)
  have word {w : Nat} (within : w ≤ domainMax IF_BITS) : (BitVec.ofNat 8 w).toNat = w := by
    rw [BitVec.toNat_ofNat, Nat.mod_eq_of_lt (show w < 2 ^ 8 from Nat.lt_succ_of_le within)]
  constructor
  · intro holds
    obtain ⟨v, input, sameInput⟩ := iif.mp holds.iif
    obtain ⟨w, output, sameOutput⟩ := oif.mp holds.oif
    have v_word := word (IntervalSet.contains_le input)
    have w_word := word (IntervalSet.contains_le output)
    refine ⟨BitVec.ofNat 8 v, BitVec.ofNat 8 w, by rw [v_word]; exact sameInput,
      by rw [w_word]; exact sameOutput, fun field => ?_⟩
    cases field with
    | srcAddr => exact src.mp holds.src
    | dstAddr => exact dst.mp holds.dst
    | srcPort => exact sport.mp holds.sport
    | dstPort => exact dport.mp holds.dport
    | proto => exact proto.mp holds.proto
    | ifIn =>
        show r.ifIn.contains (BitVec.ofNat 8 v).toNat = true
        rwa [v_word]
    | ifOut =>
        show r.ifOut.contains (BitVec.ofNat 8 w).toNat = true
        rwa [w_word]
  · rintro ⟨v, w, sameInput, sameOutput, holds⟩
    exact {
      src := src.mpr (holds .srcAddr)
      dst := dst.mpr (holds .dstAddr)
      sport := sport.mpr (holds .srcPort)
      dport := dport.mpr (holds .dstPort)
      proto := proto.mpr (holds .proto)
      iif := iif.mpr ⟨_, holds .ifIn, sameInput⟩
      oif := oif.mpr ⟨_, holds .ifOut, sameOutput⟩ }

/-- Where interfaces are told apart, an entry denotes the packets of its rectangle. -/
theorem holds_regionEntry_of_unmistakable {syms : SymbolTable}
    (unmistakable : Unmistakable syms.names) (was now : Decider) (r : Region) (p : Packet) :
    (regionEntry syms was now r).Holds syms p ↔ r.Holds p.value := by
  rw [holds_regionEntry]
  constructor
  · rintro ⟨iif, oif, sameInput, sameOutput, holds⟩
    have within (v : BitVec 8) : v.toNat ≤ domainMax IF_BITS := Nat.le_of_lt_succ v.isLt
    have input := ifaceTerm_inj unmistakable (within _) (within _) sameInput
    have output := ifaceTerm_inj unmistakable (within _) (within _) sameOutput
    rwa [BitVec.eq_of_toNat_eq input, BitVec.eq_of_toNat_eq output] at holds
  · exact fun holds => ⟨p.iif, p.oif, rfl, rfl, holds⟩

section Exact

variable {B : Type} [PathLibrary HEADER_BITS B]

/-- Without a display cap every merged region is shown. -/
theorem regions_listing (layout : Layout) (set : B) :
    (enumerate layout set listingOptions).regions = mergedRegions layout set listingOptions := by
  rw [(enumerate_eq layout set listingOptions).1]
  exact List.take_of_length_le ((length_mergedRegions_le layout set listingOptions).trans
    (by decide))

theorem entries_deltaListing (layout : Layout) (syms : SymbolTable) (base head : ChainModel B)
    (set : B) :
    (deltaListing layout syms base head set).entries =
      (attributeDelta base head set LISTING_CELLS).1.flatMap (fun cell =>
        (mergedRegions layout cell.set listingOptions).map
          (regionEntry syms cell.was cell.now)) := by
  unfold deltaListing
  simp only [regions_listing]

theorem mem_entries {layout : Layout} {syms : SymbolTable} {base head : ChainModel B} {set : B}
    {e : Entry} :
    e ∈ (deltaListing layout syms base head set).entries ↔
      ∃ cell ∈ (attributeDelta base head set LISTING_CELLS).1,
        ∃ r ∈ mergedRegions layout cell.set listingOptions,
          regionEntry syms cell.was cell.now r = e := by
  rw [entries_deltaListing]
  simp only [List.mem_flatMap, List.mem_map]

theorem complete_deltaListing (layout : Layout) (syms : SymbolTable) (base head : ChainModel B)
    (set : B) :
    (deltaListing layout syms base head set).complete = true ↔
      (attributeDelta base head set LISTING_CELLS).2 = false ∧
        ∀ cell ∈ (attributeDelta base head set LISTING_CELLS).1,
          (enumerate layout cell.set listingOptions).incomplete = false := by
  unfold deltaListing
  simp only [Bool.and_eq_true, Bool.not_eq_true', List.any_eq_false, Bool.not_eq_true]

variable [ContentHasher] (layout : Layout) (syms : SymbolTable) {base head : Chain}
  (unmistakable : Unmistakable syms.names) (baseBuilt : base.Built) (headBuilt : head.Built)
  (delta : B)

include unmistakable baseBuilt headBuilt

theorem entries_decided {e : Entry} (member : e ∈ (deltaListing layout syms
      (analyse layout syms base) (analyse layout syms head) delta).entries) :
    (∃ p, e.Holds syms p) ∧ ∀ p, e.Holds syms p →
      layout.mem delta p = true ∧ readDecider e.was = some (base.decider syms p) ∧
        readDecider e.now = some (head.decider syms p) := by
  obtain ⟨cell, attributed, r, listed, rfl⟩ := mem_entries.mp member
  have exact_ := (attribution_exact layout syms baseBuilt headBuilt delta
    LISTING_CELLS).2.2.2.1 cell attributed
  constructor
  · obtain ⟨p, holds⟩ := Region.exists_holds
      (inhabited_mergedRegions layout cell.set listingOptions r listed)
    exact ⟨p, (holds_regionEntry_of_unmistakable unmistakable _ _ _ _).mpr holds⟩
  · intro p holds
    rw [holds_regionEntry_of_unmistakable unmistakable] at holds
    obtain ⟨inside, was, now⟩ := (exact_ p).mp (mem_of_covered_mergedRegions ⟨r, listed, holds⟩)
    rw [was, now]
    exact ⟨inside, readDecider_text _, readDecider_text _⟩

/-- The flag is right in both directions. -/
theorem complete_iff_covers :
    (deltaListing layout syms (analyse layout syms base) (analyse layout syms head)
        delta).complete = true ↔
      ∀ p, layout.mem delta p = true → ∃ e ∈ (deltaListing layout syms (analyse layout syms base)
        (analyse layout syms head) delta).entries, e.Holds syms p := by
  obtain ⟨apart, _, _, exact_, truncated⟩ :=
    attribution_exact layout syms baseBuilt headBuilt delta LISTING_CELLS
  rw [complete_deltaListing, ← Bool.not_eq_true, truncated, not_not]
  simp only [incomplete_iff]
  constructor
  · intro complete p inside
    obtain ⟨cell, attributed, inCell⟩ := (complete.1 p).mpr inside
    obtain ⟨r, listed, holds⟩ := complete.2 cell attributed p inCell
    exact ⟨_, mem_entries.mpr ⟨cell, attributed, r, listed, rfl⟩,
      (holds_regionEntry_of_unmistakable unmistakable _ _ _ _).mpr holds⟩
  · intro covers
    have located {p : Packet} (inside : layout.mem delta p = true) :
        ∃ cell ∈ (attributeDelta (analyse layout syms base) (analyse layout syms head) delta
          LISTING_CELLS).1,
          Region.Covered (mergedRegions layout cell.set listingOptions) p.value := by
      obtain ⟨e, member, holds⟩ := covers p inside
      obtain ⟨cell, attributed, r, listed, rfl⟩ := mem_entries.mp member
      exact ⟨cell, attributed, r, listed,
        (holds_regionEntry_of_unmistakable unmistakable _ _ _ _).mp holds⟩
    constructor
    · intro p
      constructor
      · intro found
        obtain ⟨cell, attributed, inCell⟩ := found
        exact ((exact_ cell attributed p).mp inCell).1
      · intro inside
        obtain ⟨cell, attributed, covered⟩ := located inside
        exact ⟨cell, attributed, mem_of_covered_mergedRegions covered⟩
    · -- A packet of a cell is covered in that cell, as the cells are disjoint.
      intro cell attributed p inCell
      obtain ⟨other, alsoAttributed, covered⟩ :=
        located ((exact_ cell attributed p).mp inCell).1
      have inOther := mem_of_covered_mergedRegions covered
      have symmetric : Std.Symm (fun a b : Attribution B =>
          ∀ p, ¬ (layout.mem a.set p = true ∧ layout.mem b.set p = true)) :=
        ⟨fun _ _ clear p both => clear p both.symm⟩
      by_cases same : cell = other
      · rw [same]
        exact covered
      · have clear := apart.forall attributed alsoAttributed same p
        exact absurd ⟨inCell, inOther⟩ clear

end Exact

/-! ### Where the listing is exact -/

section Condition

variable {B : Type} [PathLibrary HEADER_BITS B] [ContentHasher] (layout : Layout)
  {syms : SymbolTable} {base head : Chain} (baseBuilt : base.Built) (headBuilt : head.Built)

include baseBuilt headBuilt

end Condition

namespace Confusion

def layout : Layout := ⟨.addrInterleaved⟩

def closed : Chain :=
  Chain.new "input" .input .drop

def rule : Rule :=
  ⟨1, { Match.any with iif := .one "if#1" }, .accept, ⟨"f", 4, 1, "iifname \"if#1\" accept"⟩⟩

/-- The only rule accepts what arrives on the interface with that name. -/
def opened : Chain :=
  closed.push rule.predicate rule.action rule.origin

/-- The index 0. -/
def cube : Clause HEADER_BITS := fun index =>
  if (List.range 8).any (fun bit => index == layout.var .ifIn bit) then some false else none

section Table

variable {syms : SymbolTable} (names : syms.names = ["if#1"])

include names

variable [ContentHasher]

def delta (syms : SymbolTable) : Diagram HEADER_BITS :=
  (diff (analyse layout syms closed) (analyse layout syms opened)).newlyAllowed

end Table

end Confusion

end Fwdelta.Cli
