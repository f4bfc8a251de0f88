import Fwdelta.Cli.Document
import Fwdelta.Cli.Gate
import Fwdelta.Nft.Meaning

/-
What the machine-readable document says about traffic.

A reader of the document has its text and no symbol table.  An entry speaks of the
interfaces it names, and for any index without a name, of all that the document does
not name.  Read so, an entry tells who decided its traffic before and after, and a
complete listing leaves no changed traffic out.
-/

namespace Fwdelta

/-! ### Deciders on names -/

namespace Chain

def rulingDecider (chain : Chain) (t : Traffic) : Decider :=
  match chain.meetingRule t with
  | some rule => .rule rule.number
  | none => .policy

end Chain

theorem Traffic.SeenAs.decider_eq {syms : SymbolTable} {t : Traffic} {p : Packet}
    (seen : t.SeenAs syms p) {chain : Chain} (known : chain.Known syms) :
    chain.decider syms p = chain.rulingDecider t := by
  have same := seen.decidingRule_eq known
  unfold Chain.decider Chain.rulingDecider
  cases found : chain.meetingRule t with
  | none => simp only [same.trans found]
  | some rule => simp only [same.trans found]

/-- A chain of an accepted text was built rule by rule. -/
theorem Nft.built_of_parse {fileName source : String} {rs : Ruleset}
    (parsed : Nft.parse fileName source = .ok rs) : ∀ chain ∈ rs.chains, chain.Built := by
  obtain ⟨f, reads⟩ := (Nft.parse_eq_ok_iff fileName source rs).mp parsed
  intro chain member
  obtain ⟨c, _, compiled⟩ := reads.chains.exists_left member
  exact (Nft.ChainText.compile_spec compiled).1

namespace Cli

/-! ### Entries on names -/

/-- A reader takes a text for the interface of that name where the document lists it, and
otherwise for any interface that the document does not list. -/
def SpeaksOf (interfaces : List String) (name text : String) : Prop :=
  if text ∈ interfaces then name = text else name ∉ interfaces

structure Entry.Meets (interfaces : List String) (e : Entry) (t : Traffic) : Prop where
  src : Listed (InBlock t.header.src.toNat) e.src
  dst : Listed (InBlock t.header.dst.toNat) e.dst
  sport : Listed (InRange t.header.sport.toNat) e.sport
  dport : Listed (InRange t.header.dport.toNat) e.dport
  proto : Listed (InRange t.header.proto.toNat) e.proto
  iif : Listed (SpeaksOf interfaces t.iif) e.iif
  oif : Listed (SpeaksOf interfaces t.oif) e.oif

section Table

variable {syms : SymbolTable} (unmistakable : Unmistakable syms.names)

include unmistakable

/-- The text of an index speaks of the interfaces that the index stands for. -/
theorem speaksOf_ifaceTerm_iff (index : BitVec 8) (name : String) :
    SpeaksOf syms.names name (ifaceTerm syms index.toNat) ↔
      IfMatch.Represents syms name index.toNat := by
  have within : index.toNat ≤ domainMax IF_BITS := Nat.le_of_lt_succ index.isLt
  unfold SpeaksOf
  cases named : syms.nameOf index.toNat with
  | some other =>
      have listed : other ∈ syms.names := List.mem_of_getElem? named
      rw [ifaceTerm_of_named named, if_pos listed]
      constructor
      · rintro rfl
        exact IfMatch.represents_of_named named
      · exact fun represents => (IfMatch.represents_eq_iff represents listed).mp named
  | none =>
      have unlisted := unmistakable index.toNat (List.getElem?_eq_none_iff.mp named) within
      rw [ifaceTerm_of_unnamed named, if_neg unlisted]
      constructor
      · exact fun outside => ⟨within, fun m known =>
          IfMatch.contains_resolve_of_unnamed syms m named within known outside⟩
      · intro represents listed
        have here := (IfMatch.represents_eq_iff represents listed).mpr rfl
        rw [named] at here
        contradiction

variable (room : syms.names.length < MAX_INTERFACES)

include room

/-- A column speaks of an interface when it speaks of an index that stands for it. -/
theorem listed_speaksOf_iff (set : IntervalSet IF_BITS) (name : String) :
    Listed (SpeaksOf syms.names name) (ifaceTerms set syms) ↔
      ∃ index : BitVec 8, IfMatch.Represents syms name index.toNat ∧
        Listed (PrintedAs syms index.toNat) (ifaceTerms set syms) := by
  have inField (index : BitVec 8) : index.toNat ≤ domainMax IF_BITS := Nat.le_of_lt_succ index.isLt
  simp only [listed_ifaceTerms_of_unmistakable set unmistakable (inField _)]
  unfold Listed ifaceTerms
  by_cases full : set.isFull = true
  · obtain ⟨index, represents⟩ := IfMatch.exists_representing (Or.inr room)
    rw [if_pos full]
    exact iff_of_true nofun ⟨index, represents, (set.isFull_iff.mp full) _ (inField index)⟩
  · rw [if_neg full]
    simp only [Option.some.injEq, forall_eq', List.mem_map, exists_exists_and_eq_and, mem_values]
    constructor
    · rintro ⟨v, inside, speaks⟩
      have within := IntervalSet.contains_le inside
      have word : (BitVec.ofNat 8 v).toNat = v := by
        rw [BitVec.toNat_ofNat, Nat.mod_eq_of_lt (show v < 2 ^ 8 from Nat.lt_succ_of_le within)]
      rw [← word] at inside speaks
      exact ⟨BitVec.ofNat 8 v, (speaksOf_ifaceTerm_iff unmistakable _ name).mp speaks, inside⟩
    · rintro ⟨index, represents, inside⟩
      exact ⟨_, inside, (speaksOf_ifaceTerm_iff unmistakable index name).mpr represents⟩

/-- An entry speaks of the traffic that some packet of it stands for. -/
theorem meets_regionEntry_iff (was now : Decider) (r : Region) (t : Traffic) :
    (regionEntry syms was now r).Meets syms.names t ↔
      ∃ p, t.SeenAs syms p ∧ (regionEntry syms was now r).Holds syms p := by
  have input := listed_speaksOf_iff unmistakable room r.ifIn t.iif
  have output := listed_speaksOf_iff unmistakable room r.ifOut t.oif
  constructor
  · intro meets
    obtain ⟨iif, inputSeen, inputListed⟩ := input.mp meets.iif
    obtain ⟨oif, outputSeen, outputListed⟩ := output.mp meets.oif
    refine ⟨{ t.header with iif := iif, oif := oif }, ⟨fun field packet => ?_, inputSeen,
      outputSeen⟩, ⟨meets.src, meets.dst, meets.sport, meets.dport, meets.proto, inputListed,
      outputListed⟩⟩
    cases field <;> first | rfl | contradiction
  · rintro ⟨p, seen, holds⟩
    have src : t.header.src.toNat = p.src.toNat := seen.header .srcAddr rfl
    have dst : t.header.dst.toNat = p.dst.toNat := seen.header .dstAddr rfl
    have sport : t.header.sport.toNat = p.sport.toNat := seen.header .srcPort rfl
    have dport : t.header.dport.toNat = p.dport.toNat := seen.header .dstPort rfl
    have proto : t.header.proto.toNat = p.proto.toNat := seen.header .proto rfl
    exact {
      src := src ▸ holds.src
      dst := dst ▸ holds.dst
      sport := sport ▸ holds.sport
      dport := dport ▸ holds.dport
      proto := proto ▸ holds.proto
      iif := input.mpr ⟨p.iif, seen.iif, holds.iif⟩
      oif := output.mpr ⟨p.oif, seen.oif, holds.oif⟩ }

end Table

/-! ### Listings tell who decides -/

/-- The listing of the traffic that the first chain treats so, and the second not. -/
structure Tells (permits : Bool) (b h : Chain) (interfaces : List String) (l : Listing) :
    Prop where
  entries : ∀ e ∈ l.entries, (∃ t, e.Meets interfaces t) ∧ ∀ t, e.Meets interfaces t →
    ((b.ruling t).permits = permits ∧ (h.ruling t).permits = !permits) ∧
      readDecider e.was = some (b.rulingDecider t) ∧ readDecider e.now = some (h.rulingDecider t)
  complete : l.complete = true → ∀ t, (b.ruling t).permits = permits →
    (h.ruling t).permits = (!permits) → ∃ e ∈ l.entries, e.Meets interfaces t

section Models

variable {B : Type} [DecisionDiagram.PathLibrary HEADER_BITS B] [ContentHasher]
variable {syms : SymbolTable} (unmistakable : Unmistakable syms.names)
  (room : syms.names.length < MAX_INTERFACES)
variable {b h : Chain} (baseBuilt : b.Built) (headBuilt : h.Built) (baseKnown : b.Known syms)
  (headKnown : h.Known syms)

include unmistakable room baseBuilt headBuilt baseKnown headKnown

theorem tells_deltaListing (layout : Layout) {permits : Bool} {delta : B}
    (exact_ : ∀ p, layout.mem delta p = true ↔ (b.verdict syms p).permits = permits ∧
      (h.verdict syms p).permits = !permits) :
    Tells permits b h syms.names
      (deltaListing layout syms (analyse layout syms b) (analyse layout syms h) delta) := by
  constructor
  · intro e member
    obtain ⟨⟨p, holds⟩, decided⟩ :=
      entries_decided layout syms unmistakable baseBuilt headBuilt delta member
    obtain ⟨cell, _, r, _, rfl⟩ := mem_entries.mp member
    constructor
    · obtain ⟨t, seen⟩ := exists_traffic syms p
      exact ⟨t, (meets_regionEntry_iff unmistakable room _ _ _ t).mpr ⟨p, seen, holds⟩⟩
    · intro t meets
      obtain ⟨q, seen, inside⟩ := (meets_regionEntry_iff unmistakable room _ _ _ t).mp meets
      obtain ⟨inDelta, was, now⟩ := decided q inside
      rw [exact_, seen.verdict_eq baseKnown, seen.verdict_eq headKnown] at inDelta
      rw [seen.decider_eq baseKnown] at was
      rw [seen.decider_eq headKnown] at now
      exact ⟨inDelta, was, now⟩
  · intro whole t before after
    obtain ⟨p, seen⟩ := t.exists_packet (Or.inr room) (Or.inr room)
    have inside : layout.mem delta p = true := by
      rw [exact_, seen.verdict_eq baseKnown, seen.verdict_eq headKnown]
      exact ⟨before, after⟩
    obtain ⟨e, member, holds⟩ :=
      (complete_iff_covers layout syms unmistakable baseBuilt headBuilt delta).mp whole p inside
    obtain ⟨cell, _, r, _, same⟩ := mem_entries.mp member
    subst same
    exact ⟨_, member, (meets_regionEntry_iff unmistakable room _ _ _ t).mpr ⟨p, seen, holds⟩⟩

theorem tells_newlyBlocked :
    Tells true b h syms.names (deltaListing layout syms (analyse layout syms b : ChainModel B)
      (analyse layout syms h)
      (diff (analyse layout syms b) (analyse layout syms h)).newlyBlocked) := by
  refine tells_deltaListing unmistakable room baseBuilt headBuilt baseKnown headKnown layout
    fun p => ?_
  rw [mem_newlyBlocked, Bool.and_eq_true, Bool.not_eq_true', Bool.not_true]

theorem tells_newlyAllowed :
    Tells false b h syms.names (deltaListing layout syms (analyse layout syms b : ChainModel B)
      (analyse layout syms h)
      (diff (analyse layout syms b) (analyse layout syms h)).newlyAllowed) := by
  refine tells_deltaListing unmistakable room baseBuilt headBuilt baseKnown headKnown layout
    fun p => ?_
  rw [mem_newlyAllowed, Bool.and_eq_true, Bool.not_eq_true', Bool.not_false, and_comm]

end Models

/-! ### The document of a comparison -/

/-- The comparison of a chain, as a line of a document has it. -/
structure ChainLine.Answers (line : ChainLine) (o : Options) (base head : Ruleset)
    (interfaces : List String) (b h : Chain) : Prop where
  compared : Compared o base head line.name b h
  blocked : Tells true b h interfaces line.newlyBlocked
  allowed : Tells false b h interfaces line.newlyAllowed

section Run

variable {B : Type} [DecisionDiagram.PathLibrary HEADER_BITS B] [ContentHasher]

/-- The text of the document says of all traffic which chain treats it otherwise, and which
rules decide it, on both sides.  The interfaces it does not name may be any others. -/
theorem document_answers {baseName baseText headName headText : String} {base head : Ruleset}
    (baseParsed : Nft.parse baseName baseText = .ok base)
    (headParsed : Nft.parse headName headText = .ok head) {o : Options} {policy : Option Policy}
    {out : Comparison B} (ran : cmdDiff o base head policy = .ok out)
    (room : out.syms.names.length < MAX_INTERFACES)
    (unmistakable : Unmistakable out.syms.names) {v : JsonGrammar.Value}
    (decoded : JsonGrammar.Document (diffJson layout base head out).render.toList v) :
    ∃ doc, readDocument v = some doc ∧ doc.exit = out.exit ∧ doc.unmatched = out.unmatched ∧
      (∀ line ∈ doc.chains, ∃ b h, line.Answers o base head doc.interfaces b h) ∧
        (∀ name b h, Compared o base head name b h → ∃ line ∈ doc.chains, line.name = name) ∧
          (doc.chains.map ChainLine.name).Pairwise (· < ·) := by
  have of := cmdDiff_ran ran
  refine ⟨_, readDocument_render layout base head decoded, rfl, rfl, ?_, ?_, ?_⟩
  · intro line member
    obtain ⟨s, listed, rfl⟩ := List.mem_map.mp member
    obtain ⟨b, h, compared, same⟩ := (of.sections s).mp listed
    have baseBuilt := Nft.built_of_parse baseParsed b (List.mem_of_find?_eq_some compared.base)
    have headBuilt := Nft.built_of_parse headParsed h (List.mem_of_find?_eq_some compared.head)
    have baseKnown := of.known (Or.inl rfl) compared.base
    have headKnown := of.known (Or.inr rfl) compared.head
    refine ⟨b, h, compared, ?_, ?_⟩
    · rw [same]
      exact tells_newlyBlocked unmistakable room baseBuilt headBuilt baseKnown headKnown
    · rw [same]
      exact tells_newlyAllowed unmistakable room baseBuilt headBuilt baseKnown headKnown
  · intro name b h compared
    refine ⟨_, List.mem_map.mpr ⟨_, (of.sections ⟨name, _, _, _⟩).mpr ⟨b, h, compared, rfl⟩, rfl⟩,
      rfl⟩
  · rw [documentOf, List.map_map]
    exact of.ordered

end Run

/-- The document of a policy turned from accept to drop is read back, and tells that all
access to the chain is lost. -/
theorem dropping_document_answers : letI : ContentHasher := ⟨fun _ _ => 0⟩
    ∃ out : Comparison (DecisionDiagram.Diagram HEADER_BITS), ∃ v,
      cmdDiff gated (bare [("c", .input, .accept)]) (bare [("c", .input, .drop)]) none = .ok out ∧
        JsonGrammar.Document (diffJson layout (bare [("c", .input, .accept)])
          (bare [("c", .input, .drop)]) out).render.toList v ∧
        ∃ doc, readDocument v = some doc ∧ doc.exit = 1 ∧ ∃ line ∈ doc.chains, line.name = "c" ∧
          ∃ b h, line.Answers gated (bare [("c", .input, .accept)]) (bare [("c", .input, .drop)])
            doc.interfaces b h := by
  let _ : ContentHasher := ⟨fun _ _ => 0⟩
  have baseParsed : Nft.parse "f" (bareSource "t" "c" "input" "accept") =
      .ok (bare [("c", .input, .accept)]) := by decide +kernel
  have headParsed : Nft.parse "f" (bareSource "t" "c" "input" "drop") =
      .ok (bare [("c", .input, .drop)]) := by decide +kernel
  obtain ⟨out, ran⟩ := gated_ran (B := DecisionDiagram.Diagram HEADER_BITS)
    [("c", .input, .accept)] [("c", .input, .drop)]
  have names := symbols_empty rfl (cmdDiff_ran ran).syms
  have room := bare_room rfl ran
  have unmistakable : Unmistakable out.syms.names := by
    rw [names]
    intro _ _ _ listed
    cases listed
  have decoded := Json.document_render (diffJson layout (bare [("c", .input, .accept)])
    (bare [("c", .input, .drop)]) out)
  have failed : out.exit = 1 := by
    have of := cmdDiff_ran ran
    rw [of.exit]
    unfold exitCode
    simp [(of.lost_iff room).mpr (turned_losesAccess "c"), gated]
  obtain ⟨doc, read, exit, _, told, compared, _⟩ :=
    document_answers baseParsed headParsed ran room unmistakable decoded
  obtain ⟨line, listed, name⟩ := compared "c" _ _ ⟨rfl, rfl, gated_asked "c"⟩
  exact ⟨out, _, ran, decoded, doc, read, exit.trans failed, line, listed, name,
    told line listed⟩

end Cli

end Fwdelta
