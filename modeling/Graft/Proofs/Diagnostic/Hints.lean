import Mathlib.Data.String.Basic
import Graft.Proofs.Diagnostic.EditDistance
import Graft.Proofs.Types.Lookup
import Graft.Proofs.Unit.Verdict

/-!
# Names that are offered

Of the names near to an unknown one, the closest are offered first. Names at one distance are told
apart by their spelling, so that no two names tie: what is offered depends on which names there are
and how often, and not on the order in which they are listed.
-/

namespace Graft

variable {target : String} {names names' : List String} {most : Nat}

/-! ## The order of names -/

/-- The edit distance of two names. -/
def apart (s t : String) : Nat := EditDistance.distance s.toList t.toList

theorem apart_self (s : String) : apart s s = 0 :=
  Nat.le_zero.mp (EditDistance.Edits.none s.toList).distance_le

/-- The name `m` is to be offered before `n`, or is `n`. -/
def Precedes (target m n : String) : Prop :=
  apart target m < apart target n ∨ apart target m = apart target n ∧ m ≤ n

theorem Precedes.apart_le {m n : String} (h : Precedes target m n) :
    apart target m ≤ apart target n := by
  rcases h with hlt | ⟨heq, -⟩ <;> omega

theorem Precedes.antisymm {m n : String} (h : Precedes target m n) (h' : Precedes target n m) :
    m = n := by
  rcases h with hlt | ⟨heq, hle⟩
  · have hge : apart target n ≤ apart target m := h'.apart_le
    omega
  rcases h' with hlt | ⟨-, hge⟩
  · omega
  · exact String.le_antisymm hle hge

theorem closer_iff {a b : String × Nat} :
    closer a b = true ↔ a.2 < b.2 ∨ a.2 = b.2 ∧ a.1 ≤ b.1 := by
  simp [closer]

theorem closer_trans (a b c : String × Nat) (h : closer a b = true) (h' : closer b c = true) :
    closer a c = true := by
  rw [closer_iff] at h h' ⊢
  rcases h with hlt | ⟨heq, hle⟩
  · rcases h' with hlt' | ⟨heq', -⟩ <;> omega
  rcases h' with hlt' | ⟨heq', hle'⟩
  · omega
  · exact .inr ⟨heq.trans heq', String.le_trans hle hle'⟩

theorem closer_total (a b : String × Nat) : (closer a b || closer b a) = true := by
  rw [Bool.or_eq_true, closer_iff, closer_iff]
  rcases Nat.lt_trichotomy a.2 b.2 with hlt | heq | hgt
  · exact .inl (.inl hlt)
  · exact (String.le_total a.1 b.1).imp (fun hle => .inr ⟨heq, hle⟩) fun hge => .inr ⟨heq.symm, hge⟩
  · exact .inr (.inl hgt)

/-! ## The names found -/

/-- Names with their distances. -/
def measured (target : String) (names : List String) : List (String × Nat) :=
  names.map fun n => (n, apart target n)

theorem similarNames_eq (target : String) (names : List String) (most : Nat) :
    similarNames target names most =
      (((measured target names).filter fun p => p.2 ≤ most && 0 < p.2).mergeSort closer).map
        (·.1) :=
  rfl

/-- The names found are those near enough, in some order. -/
theorem similarNames_perm (target : String) (names : List String) (most : Nat) :
    (similarNames target names most).Perm
      (names.filter fun n => apart target n ≤ most && 0 < apart target n) := by
  have hnear : ((measured target names).filter fun p => p.2 ≤ most && 0 < p.2).map (·.1) =
      names.filter fun n => apart target n ≤ most && 0 < apart target n := by
    rw [measured, List.filter_map, List.map_map]
    exact List.map_id _
  rw [← hnear, similarNames_eq]
  exact (List.mergeSort_perm _ closer).map _

theorem mem_similarNames {n : String} : n ∈ similarNames target names most ↔
    n ∈ names ∧ 1 ≤ apart target n ∧ apart target n ≤ most := by
  rw [(similarNames_perm target names most).mem_iff, List.mem_filter, Bool.and_eq_true,
    decide_eq_true_iff, decide_eq_true_iff, and_comm (a := apart target n ≤ most)]
  exact Iff.rfl

theorem count_similarNames (target : String) (names : List String) (most : Nat) (n : String) :
    (similarNames target names most).count n =
      if 1 ≤ apart target n ∧ apart target n ≤ most then names.count n else 0 := by
  split
  next hnear =>
    rw [(similarNames_perm target names most).count_eq]
    apply List.count_filter
    rw [Bool.and_eq_true, decide_eq_true_iff, decide_eq_true_iff]
    exact ⟨hnear.2, hnear.1⟩
  next hfar =>
    rw [List.count_eq_zero, mem_similarNames]
    exact fun h => hfar h.2

theorem similarNames_sorted (target : String) (names : List String) (most : Nat) :
    (similarNames target names most).Pairwise (Precedes target) := by
  rw [similarNames_eq, List.pairwise_map]
  refine (List.pairwise_mergeSort closer_trans closer_total _).imp_of_mem ?_
  have hdistance : ∀ a ∈ ((measured target names).filter fun p => p.2 ≤ most && 0 < p.2).mergeSort
      closer, a.2 = apart target a.1 := by
    intro a ha
    obtain ⟨n, -, rfl⟩ := List.mem_map.mp (List.mem_of_mem_filter (List.mem_mergeSort.mp ha))
    rfl
  intro a b ha hb hcloser
  rw [closer_iff, hdistance a ha, hdistance b hb] at hcloser
  exact hcloser

/-- Listed in another order, the names give the same names in the same order. -/
theorem similarNames_congr (target : String) (h : names'.Perm names) (most : Nat) :
    similarNames target names' most = similarNames target names most := by
  apply List.Perm.eq_of_pairwise (fun m n _ _ hle hge => Precedes.antisymm hle hge)
    (similarNames_sorted target names' most) (similarNames_sorted target names most)
  exact (similarNames_perm target names' most).trans
    ((h.filter _).trans (similarNames_perm target names most).symm)

/-! ## The hints of an unmapped type -/

namespace Diagnostic

/-- The hint that offers a name. -/
def offer (name : String) : String := "Did you mean '" ++ name ++ "'?"

theorem offer_injective : Function.Injective offer := by
  intro m n h
  have hlists : (offer m).toList = (offer n).toList := congrArg _ h
  rw [offer, offer, String.toList_append, String.toList_append, String.toList_append,
    String.toList_append] at hlists
  exact String.toList_injective
    (List.append_cancel_left (List.append_cancel_right hlists))

variable {c : TypeContext} {type : String} {position : TypePosition} {location : Location}
  {known : List String} {d : Diagnostic}

theorem hints_of_near (h : similarNames type known 2 ≠ []) :
    (unmappedType type position location known).hints =
      ((similarNames type known 2).take 3).map offer := by
  have hoffers : nameHints type known = ((similarNames type known 2).take 3).map offer := rfl
  unfold unmappedType
  simp only [hoffers]
  rw [if_neg]
  simpa using h

theorem hints_of_none_near (h : similarNames type known 2 = []) :
    (unmappedType type position location known).hints =
      ["Register a correspondence for it in the active type context"] := by
  unfold unmappedType nameHints
  rw [h]
  rfl

/-- The names that are offered are the first of those found, whether or not there are any. -/
theorem getElem?_hints {i : Nat} {name : String} :
    (unmappedType type position location known).hints[i]? = some (offer name) ↔
      ((similarNames type known 2).take 3)[i]? = some name := by
  by_cases hnone : similarNames type known 2 = []
  · have hother : "Register a correspondence for it in the active type context" ≠ offer name := by
      intro h
      have hhead := congrArg (fun s : String => s.toList.head?) h
      simp [offer] at hhead
    rw [hints_of_none_near hnone, hnone]
    cases i with
    | zero => simpa using hother
    | succ i => simp
  · rw [hints_of_near hnone, List.getElem?_map, Option.map_eq_some_iff]
    constructor
    · rintro ⟨n, hn, heq⟩
      rwa [← offer_injective heq]
    · exact fun hn => ⟨name, hn, rfl⟩

theorem offer_mem_hints {name : String} :
    offer name ∈ (unmappedType type position location known).hints ↔
      name ∈ (similarNames type known 2).take 3 := by
  rw [List.mem_iff_getElem?, List.mem_iff_getElem?]
  exact exists_congr fun i => getElem?_hints

/-- The keys of a context give the same diagnostic in whichever order they are listed. -/
theorem unmappedType_congr {known' : List String} (h : known'.Perm known) :
    unmappedType type position location known' = unmappedType type position location known := by
  unfold unmappedType nameHints
  rw [similarNames_congr type h]

/-- What hints offer for a type: types other than it that have a correspondence of their own in the
context `c`, the closest first. -/
structure Offers (c : TypeContext) (type : String) (hints : List String) : Prop where
  /-- Hints offer names, unless the only one offers none. -/
  form : (∀ hint ∈ hints, ∃ name, hint = offer name) ∨
    hints = ["Register a correspondence for it in the active type context"]
  registered {name : String} : offer name ∈ hints → ∃ e ∈ c.entries, e.1.spelling = name
  near {name : String} : offer name ∈ hints → 1 ≤ apart type name ∧ apart type name ≤ 2
  other {name : String} : offer name ∈ hints → name ≠ type
  ordered {i j : Nat} {m n : String} : i < j → hints[i]? = some (offer m) →
    hints[j]? = some (offer n) → Precedes type m n
  /-- A type that is near is offered, or there are three hints, all of which come before it. -/
  closest {e : ForeignType × HostType} : e ∈ c.entries → 1 ≤ apart type e.1.spelling →
    apart type e.1.spelling ≤ 2 → offer e.1.spelling ∈ hints ∨ hints.length = 3 ∧
      ∀ hint ∈ hints, ∃ m, hint = offer m ∧ Precedes type m e.1.spelling

theorem offers_unmappedType (c : TypeContext) (type : String) (position : TypePosition)
    (location : Location) :
    Offers c type (unmappedType type position location c.spellings).hints := by
  have hfound : ∀ {name}, offer name ∈ (unmappedType type position location c.spellings).hints →
      name ∈ c.spellings ∧ 1 ≤ apart type name ∧ apart type name ≤ 2 := by
    intro name h
    exact mem_similarNames.mp (List.mem_of_mem_take (offer_mem_hints.mp h))
  have hsorted := similarNames_sorted type c.spellings 2
  refine ⟨?_, ?_, ?_, ?_, ?_, ?_⟩
  · by_cases hnone : similarNames type c.spellings 2 = []
    · exact .inr (hints_of_none_near hnone)
    · rw [hints_of_near hnone]
      refine .inl fun hint hhint => ?_
      obtain ⟨name, -, rfl⟩ := List.mem_map.mp hhint
      exact ⟨name, rfl⟩
  · intro name h
    exact List.mem_map.mp (hfound h).1
  · intro name h
    exact (hfound h).2
  · rintro _ h rfl
    have hnear := (hfound h).2.1
    rw [apart_self] at hnear
    cases hnear
  · intro i j m n hij hm hn
    obtain ⟨hi, rfl⟩ := List.getElem?_eq_some_iff.mp (getElem?_hints.mp hm)
    obtain ⟨hj, rfl⟩ := List.getElem?_eq_some_iff.mp (getElem?_hints.mp hn)
    exact List.pairwise_iff_getElem.mp (hsorted.sublist (List.take_sublist 3 _)) i j hi hj hij
  -- A near name is offered, or three names that come before it are.
  · intro e he hleast hmost
    have hmem : e.1.spelling ∈ similarNames type c.spellings 2 :=
      mem_similarNames.mpr ⟨List.mem_map_of_mem he, hleast, hmost⟩
    have hsome : similarNames type c.spellings 2 ≠ [] := List.ne_nil_of_mem hmem
    rw [← List.take_append_drop 3 (similarNames type c.spellings 2)] at hmem hsorted
    rcases List.mem_append.mp hmem with hfirst | hlater
    · exact .inl (offer_mem_hints.mpr hfirst)
    · have hlength : ¬ (similarNames type c.spellings 2).length ≤ 3 := by
        intro hle
        exact List.ne_nil_of_mem hlater (List.drop_eq_nil_iff.mpr hle)
      refine .inr ⟨?_, ?_⟩
      · rw [hints_of_near hsome, List.length_map, List.length_take]
        omega
      · rw [hints_of_near hsome]
        intro hint hhint
        obtain ⟨m, hm, rfl⟩ := List.mem_map.mp hhint
        exact ⟨m, rfl, (List.pairwise_append.mp hsorted).2.2 m hm _ hlater⟩

/-! ## What is told of a snippet and of a file -/

/-- If `d` tells of an unmapped type, its hints offer what the context `c` has near to it. -/
def OffersFrom (c : TypeContext) (d : Diagnostic) : Prop :=
  ∀ type position, d.fault = .unmappedType type position → Offers c type d.hints

theorem OffersFrom.of_ne (h : ∀ type position, d.fault ≠ .unmappedType type position) :
    OffersFrom c d :=
  fun type position hfault => absurd hfault (h type position)

theorem offersFrom_unmappedType :
    OffersFrom c (unmappedType type position location c.spellings) := by
  rintro _ _ ⟨⟩
  exact offers_unmappedType c type position location

/-- A text that is no snippet is not refused for its types. -/
theorem offersFrom_of_read {text : String} {origin : Location}
    (h : Snippet.read text origin = .error d) : OffersFrom c d := by
  apply OffersFrom.of_ne
  intro type position hfault
  rcases Snippet.read_eq_error h with houtline | ⟨_, _, _, -, _, _, _, _, _, -, -, -, hdeclare⟩
  · rw [hfault] at houtline
    rcases houtline with ⟨message, hd⟩ | hd | hd <;> cases hd
  · obtain ⟨-, hd⟩ := Snippet.declare_eq_error hdeclare
    rw [hfault] at hd
    rcases hd with ⟨reason, hd⟩ | ⟨name, first, second, hd⟩ <;> cases hd

theorem offersFrom_of_resolve {s : Snippet} (h : Signature.resolve c s = .error d) :
    OffersFrom c d := by
  obtain ⟨type, -, -, position, location, rfl⟩ := Signature.resolve_eq_error h
  exact offersFrom_unmappedType

variable {u : CompilationUnit}

theorem offersFrom_of_expand {entry : EntryPoint} {text : String} {site : Site}
    {bridge : HostBridge} (h : (u.expand entry text site bridge).result = .error d) :
    OffersFrom u.context d := by
  obtain ⟨d, events, hresolve, rfl⟩ := CompilationUnit.expand_eq_error h
  show OffersFrom u.context d
  rcases CompilationUnit.resolve_eq_error hresolve with hread | ⟨s, -, hsignature | hargs⟩
  · exact offersFrom_of_read hread
  · exact offersFrom_of_resolve hsignature
  · obtain ⟨p, -, -, rfl⟩ := CompilationUnit.lookUp_eq_error hargs
    exact .of_ne nofun

theorem offersFrom_of_emitItems {text : String} {location : Location}
    (h : u.emitItems text location = .error d) : OffersFrom c d := by
  unfold CompilationUnit.emitItems at h
  split at h
  · cases h
  · rw [← Except.error.inj h]
    exact .of_ne nofun

theorem offersFrom_of_failure? {l : HostLanguage} {scope : HostScope} {q : Quote}
    (h : q.failure? l scope u = some d) : OffersFrom u.context d := by
  have hverdict := Quote.failure?_eq_some_iff.mp h
  unfold Quote.verdict at hverdict
  split at hverdict
  · exact offersFrom_of_expand (except_map_eq_error hverdict)
  · exact offersFrom_of_emitItems (except_map_eq_error hverdict)
  · cases hverdict

/-- A quote that does not end is not told of for its type. -/
theorem offersFrom_of_scan {source : String} {marks : CommentSyntax} {isQuoter : String → Bool}
    (h : Quote.scan source marks isQuoter = .error d) : OffersFrom c d := by
  unfold Quote.scan at h
  cases hrun : Scan.run marks isQuoter 0 none 0 source.toList with
  | ok found =>
    simp only [hrun] at h
    cases h
  | error e =>
    simp only [hrun] at h
    rw [← Except.error.inj h]
    exact .of_ne nofun

theorem offersFrom_of_expandSource {l : HostLanguage} {scope : HostScope} {source : String}
    {ds : List Diagnostic} (h : (u.expandSource source l scope).1 = .error ds) (hd : d ∈ ds) :
    OffersFrom u.context d := by
  rcases CompilationUnit.expandSource_eq_error_iff.mp h with ⟨d', hscan, rfl⟩ | ⟨quotes, -, -, rfl⟩
  · obtain rfl := List.mem_singleton.mp hd
    show OffersFrom u.context d'
    exact offersFrom_of_scan hscan
  · obtain ⟨q, -, hq⟩ := List.mem_filterMap.mp (List.mem_of_mem_take hd)
    -- The fresh unit has the context of the unit.
    exact offersFrom_of_failure? (u := u.fresh) hq

/-- **Only near names are offered, the closest first.** The names found are those at a distance from
one up to the bound, each as often as it is listed, by their distance and then by their spelling, in
whichever order they are listed. So what is told of a type without a host type, when a snippet is
resolved or expanded or a whole file is, offers types that the active context has a correspondence
for, never the type itself, and no type that is farther before one that is closer. -/
theorem offers_closest_first (target : String) (names : List String) (most : Nat)
    (u : CompilationUnit) :
    (∀ n, (similarNames target names most).count n =
      if 1 ≤ apart target n ∧ apart target n ≤ most then names.count n else 0) ∧
    (similarNames target names most).Pairwise (Precedes target) ∧
    (∀ names', names'.Perm names →
      similarNames target names' most = similarNames target names most ∧
        ∀ position location, unmappedType target position location names' =
          unmappedType target position location names) ∧
    (∀ c s d, Signature.resolve c s = .error d →
      ∃ type ∈ s.resultKey :: s.paramKeys, c.lookup type = none ∧
        ∃ position, d.fault = .unmappedType type.spelling position ∧
          Offers c type.spelling d.hints) ∧
    (∀ entry text site bridge d, (u.expand entry text site bridge).result = .error d →
      OffersFrom u.context d) ∧
    ∀ source l scope ds, (u.expandSource source l scope).1 = .error ds →
      ∀ d ∈ ds, OffersFrom u.context d := by
  refine ⟨count_similarNames target names most, similarNames_sorted target names most,
    fun _ hperm => ⟨similarNames_congr target hperm most, fun _ _ => unmappedType_congr hperm⟩, ?_,
    fun _ _ _ _ _ h => offersFrom_of_expand h, fun _ _ _ _ h _ hd =>
    offersFrom_of_expandSource h hd⟩
  intro c s d h
  obtain ⟨type, htype, hnone, position, location, rfl⟩ := Signature.resolve_eq_error h
  exact ⟨type, htype, hnone, position, rfl, offers_unmappedType c _ position location⟩

/-- Of two names near to a misspelled type the closer is found first, however they are listed. A
snippet with that type fails, in its file as well, with hints that offer registered types. -/
theorem offers_closest_first_usiz :
    let u := CompilationUnit.ofName "Main.hs" .standard .basic
    let q : Quote := ⟨"rust", "usiz \x7b 0 \x7d", ⟨0, 18⟩, ⟨1, 0, 1, 18⟩, .point ⟨1, 6⟩⟩
    similarNames "usiz" ["isize", "usize"] 2 = ["usize", "isize"] ∧
    (∃ s d, Snippet.read q.body q.bodyLocation = .ok s ∧ Signature.resolve u.context s = .error d ∧
      d.fault = .unmappedType "usiz" .result ∧ Offers u.context "usiz" d.hints) ∧
    (∃ d, (u.expand ⟨.safe, .pure⟩ q.body ⟨q.span, q.bodyLocation⟩
        (.ofScope haskell .open)).result = .error d ∧
      d.fault = .unmappedType "usiz" .result ∧ Offers u.context "usiz" d.hints) ∧
    ∃ d, (u.expandSource "[rust|usiz \x7b 0 \x7d|]" haskell .open).1 = .error [d] ∧
      d.fault = .unmappedType "usiz" .result ∧ Offers u.context "usiz" d.hints := by
  intro u q
  obtain ⟨-, -, hperm, hresolve, hexpand, hsource⟩ :=
    offers_closest_first "usiz" ["usize", "isize"] 2 u
  have hlookup : u.context.lookup ⟨"usiz"⟩ = none := by
    have hlisted : u.context.listed? ⟨"usiz"⟩ = none := by decide +kernel
    have hruled : u.context.ruled? ⟨"usiz"⟩ = none := by decide +kernel
    rw [TypeContext.lookup_of_unlisted hlisted, TypeContext.derived?_eq, hruled]
    rfl
  have hkey : (Snippet.read q.body q.bodyLocation).map (·.resultKey) = .ok ⟨"usiz"⟩ := by
    decide +kernel
  obtain ⟨s, hread, hs⟩ := except_map_eq_ok hkey
  obtain ⟨d, hfault, hd⟩ : ∃ d, d.fault = .unmappedType "usiz" .result ∧
      Signature.resolve u.context s = .error d := by
    refine ⟨unmappedType "usiz" .result s.location u.context.spellings, rfl, ?_⟩
    unfold Signature.resolve TypeContext.resolve
    rw [hs, hlookup]
    rfl
  have hfailed : u.resolve q.body ⟨q.span, q.bodyLocation⟩ (.ofScope haskell .open) =
      (.error d, []) := by
    unfold CompilationUnit.resolve
    rw [hread]
    simp only [hd]
  have hresult := congrArg (·.result) (CompilationUnit.expand_of_error hfailed ⟨.safe, .pure⟩)
  have hsourced : (u.expandSource "[rust|usiz \x7b 0 \x7d|]" haskell .open).1 =
      .error [d.inFile u.name] := by
    have hscan : Quote.scan "[rust|usiz \x7b 0 \x7d|]" haskell.comments QuoteKind.isQuoter =
        .ok [q] := by decide +kernel
    have hkind : QuoteKind.ofQuoter? q.quoter = some (.expression ⟨.safe, .pure⟩) := by
      decide +kernel
    have hverdict : q.verdict haskell .open u.fresh = .error (d.inFile u.name) := by
      unfold Quote.verdict
      rw [hkind]
      exact congrArg (Except.map fun _ => ()) hresult
    refine CompilationUnit.expandSource_eq_error_iff.mpr (.inr ⟨[q], hscan, nofun, ?_⟩)
    rw [List.filterMap_cons_some (Quote.failure?_eq_some_iff.mpr hverdict)]
    rfl
  refine ⟨?_, ⟨s, d, hread, hd, hfault, ?_⟩, ⟨_, hresult, hfault, ?_⟩, _, hsourced, hfault, ?_⟩
  · have hnear : (measured "usiz" ["usize", "isize"]).filter (fun p => p.2 ≤ 2 && 0 < p.2) =
        [("usize", 1), ("isize", 2)] := by decide +kernel
    have hsorted : [("usize", 1), ("isize", 2)].mergeSort closer = [("usize", 1), ("isize", 2)] :=
      List.mergeSort_of_pairwise (by decide)
    rw [(hperm ["isize", "usize"] (.swap ..)).1, similarNames_eq, hnear, hsorted]
    rfl
  · obtain ⟨type, -, -, position, htype, hoffers⟩ := hresolve u.context s d hd
    have hspelling : type.spelling = "usiz" := (Fault.unmappedType.inj (htype.symm.trans hfault)).1
    rwa [hspelling] at hoffers
  · exact hexpand _ _ _ _ _ hresult _ _ hfault
  · exact hsource _ _ _ _ hsourced _ List.mem_cons_self _ _ hfault

end Diagnostic

end Graft
