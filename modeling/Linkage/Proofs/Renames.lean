import Linkage.Proofs.Catalogues
import Linkage.Proofs.FreshNames
import Linkage.Proofs.Verdicts
/-!
The names a link gives out. Whatever requests for fresh names are served, and in whatever order,
no name is given out twice and none was taken before; and the requests are those of the
declarations that the verdicts tell apart.
-/
namespace Linkage

structure Request where
  name : Name
  unit : Nat
  suffix : Option String

namespace Naming

def serve (n : Naming) (r : Request) : Checked Naming := n.freshen r.name r.unit r.suffix

/-- What serving requests keeps: the names given out are taken now, were free in the beginning,
and differ. -/
structure Sound (start n : Naming) : Prop where
  lexicon : start.lexicon.Extends n.lexicon
  taken : ∀ text, start.pool.contains text = true → n.pool.contains text = true
  given : ∀ unit name new, n.renames.get? unit name = some new →
    ∃ text, n.lexicon.text new = .ok text ∧ n.pool.contains text = true ∧
      start.pool.contains text = false
  apart : ∀ unit name unit' name' new, n.renames.get? unit name = some new →
    n.renames.get? unit' name' = some new → unit = unit' ∧ name = name'

variable {start n n' : Naming}

theorem Sound.known (h : start.Sound n) {unit : Nat} {name new : Name}
    (hget : n.renames.get? unit name = some new) : new.index < n.lexicon.size := by
  obtain ⟨text, htext, -⟩ := h.given unit name new hget
  exact Lexicon.lt_size_of_text htext

theorem Sound.refl (h : start.renames.entries = []) : start.Sound start := by
  have nothing : ∀ unit name new, start.renames.get? unit name = some new → False := by
    intro unit name new hget
    rw [Renaming.get?, h] at hget
    cases hget
  exact ⟨.refl _, fun _ h => h, fun _ _ _ h => (nothing _ _ _ h).elim,
    fun _ _ _ _ _ h => (nothing _ _ _ h).elim⟩

/-- A request is served with a text that was free: it is taken from now on, and the declaration
gets its name. -/
structure Served (n : Naming) (r : Request) (text : String) (n' : Naming) : Prop where
  free : n.pool.contains text = false
  pool : ∀ other, n'.pool.contains other = (n.pool.contains other || other == text)
  lexicon : n'.lexicon = (n.lexicon.intern text).2
  renames : ∀ unit name, n'.renames.get? unit name =
    if unit = r.unit ∧ name = r.name then some (n.lexicon.intern text).1
    else n.renames.get? unit name

theorem served_of_serve {r : Request} (h : n.serve r = .ok n') :
    ∃ base, n.lexicon.text r.name = .ok base ∧
      n.Served r (n.pool.allocate base r.suffix).1 n' := by
  obtain ⟨base, hbase, h⟩ := bind_eq_ok.mp h
  cases h
  exact ⟨base, hbase, NamePool.allocate_fresh _ _ _, NamePool.contains_allocate _ _ _, rfl,
    fun _ _ => Renaming.get?_insert _ _ _ _ _ _⟩

theorem Served.get?_or {r : Request} {text : String} (h : n.Served r text n') {unit : Nat}
    {name new : Name} (hget : n'.renames.get? unit name = some new) :
    (unit = r.unit ∧ name = r.name ∧ new = (n.lexicon.intern text).1) ∨
      n.renames.get? unit name = some new := by
  rw [h.renames] at hget
  split at hget
  · next same => exact .inl ⟨same.1, same.2, (Option.some.inj hget).symm⟩
  · exact .inr hget

theorem Sound.afterServe (h : start.Sound n) {r : Request} (served : n.serve r = .ok n') :
    start.Sound n' := by
  obtain ⟨base, -, served⟩ := served_of_serve served
  generalize (n.pool.allocate base r.suffix).1 = text at served
  have extends_ := n.lexicon.extends_intern text
  -- names given out before keep their texts, so none of them is the new one
  have before : ∀ unit name new, n.renames.get? unit name = some new →
      new ≠ (n.lexicon.intern text).1 := by
    intro unit name new hget same
    obtain ⟨old, hold, used, -⟩ := h.given unit name new hget
    have kept := extends_.text_eq_ok hold
    rw [same, Lexicon.text_intern] at kept
    cases kept
    rw [served.free] at used
    cases used
  refine ⟨?_, fun other hother => ?_, fun unit name new hget => ?_,
    fun unit name unit' name' new hget hget' => ?_⟩
  · rw [served.lexicon]
    exact h.lexicon.trans extends_
  · rw [served.pool, h.taken other hother, Bool.true_or]
  · rcases served.get?_or hget with ⟨-, -, rfl⟩ | hget
    · refine ⟨text, ?_, ?_, ?_⟩
      · rw [served.lexicon, Lexicon.text_intern]
      · rw [served.pool, beq_self_eq_true, Bool.or_true]
      · by_contra used
        have taken := h.taken text (by simpa using used)
        rw [served.free] at taken
        cases taken
    · obtain ⟨old, hold, used, unused⟩ := h.given unit name new hget
      refine ⟨old, ?_, ?_, unused⟩
      · rw [served.lexicon]
        exact extends_.text_eq_ok hold
      · rw [served.pool, used, Bool.true_or]
  · rcases served.get?_or hget with ⟨rfl, rfl, rfl⟩ | hget
    · rcases served.get?_or hget' with ⟨rfl, rfl, -⟩ | hget'
      · exact ⟨rfl, rfl⟩
      · exact absurd rfl (before unit' name' _ hget')
    · rcases served.get?_or hget' with ⟨-, -, rfl⟩ | hget'
      · exact absurd rfl (before unit name _ hget)
      · exact h.apart unit name unit' name' new hget hget'

theorem Sound.run (h : start.Sound n) {rs : List Request} (served : rs.foldlM serve n = .ok n') :
    start.Sound n' := by
  induction rs generalizing n with
  | nil =>
    cases served
    exact h
  | cons r rest ih =>
    obtain ⟨next, hnext, served⟩ := bind_eq_ok.mp served
    exact ih (h.afterServe hnext) served

/-- Every name given out is for a request of the given kind, and made from what it asks. -/
def Answers (start : Naming) (asked : Request → Prop) (n : Naming) : Prop :=
  ∀ unit name new, n.renames.get? unit name = some new →
    ∃ r base text, asked r ∧ r.unit = unit ∧ r.name = name ∧ start.lexicon.text name = .ok base ∧
      n.lexicon.text new = .ok text ∧ NamePool.Derived base r.suffix text

theorem Answers.afterServe {asked : Request → Prop} (h : start.Answers asked n)
    (sound : start.Sound n) {r : Request} (hr : asked r)
    (taken : ∃ base, start.lexicon.text r.name = .ok base ∧ start.pool.contains base = true)
    (served : n.serve r = .ok n') : start.Answers asked n' := by
  intro unit name new hget
  obtain ⟨base, hbase, used⟩ := taken
  obtain ⟨found, hfound, served⟩ := served_of_serve served
  obtain rfl : base = found :=
    Except.ok.inj ((sound.lexicon.text_eq_ok hbase).symm.trans hfound)
  rcases served.get?_or hget with ⟨rfl, rfl, rfl⟩ | hget
  · refine ⟨r, base, _, hr, rfl, rfl, hbase, ?_,
      NamePool.allocate_derived (sound.taken base used) r.suffix⟩
    rw [served.lexicon, Lexicon.text_intern]
  · obtain ⟨r', base', text, hr', hunit, hname, hbase', htext, derived⟩ := h unit name new hget
    refine ⟨r', base', text, hr', hunit, hname, hbase', ?_, derived⟩
    rw [served.lexicon]
    exact (n.lexicon.extends_intern _).text_eq_ok htext

theorem Answers.run {asked : Request → Prop} (h : start.Answers asked n) (sound : start.Sound n)
    {rs : List Request} (each : ∀ r ∈ rs, asked r ∧
      ∃ base, start.lexicon.text r.name = .ok base ∧ start.pool.contains base = true)
    (served : rs.foldlM serve n = .ok n') : start.Answers asked n' := by
  induction rs generalizing n with
  | nil =>
    cases served
    exact h
  | cons r rest ih =>
    obtain ⟨⟨hr, taken⟩, others⟩ := List.forall_mem_cons.mp each
    obtain ⟨next, hnext, served⟩ := bind_eq_ok.mp served
    exact ih (h.afterServe sound hr taken hnext) (sound.afterServe hnext) others served

theorem isSome_get?_run {rs : List Request} (served : rs.foldlM serve n = .ok n') (unit : Nat)
    (name : Name) : (n'.renames.get? unit name).isSome = true ↔
      (n.renames.get? unit name).isSome = true ∨ ∃ r ∈ rs, r.unit = unit ∧ r.name = name := by
  induction rs generalizing n with
  | nil =>
    cases served
    simp
  | cons r rest ih =>
    obtain ⟨next, hnext, served⟩ := bind_eq_ok.mp served
    obtain ⟨base, -, first⟩ := served_of_serve hnext
    rw [ih served, List.exists_mem_cons_iff, first.renames]
    by_cases same : unit = r.unit ∧ name = r.name
    · rw [if_pos same]
      simp [same]
    · rw [if_neg same]
      have other : ¬ (r.unit = unit ∧ r.name = name) := fun both =>
        same ⟨both.1.symm, both.2.symm⟩
      simp [other]

end Naming

def RenamePolicy.choose {α : Type} (policy : RenamePolicy) (xs : List α) : List α :=
  match policy with
  | .keepFirst => xs.drop 1
  | .renameAll => xs

theorem RenamePolicy.choose_map {α β : Type} (policy : RenamePolicy) (f : α → β) (xs : List α) :
    policy.choose (xs.map f) = (policy.choose xs).map f := by
  cases policy with
  | keepFirst => exact (List.map_drop).symm
  | renameAll => rfl

theorem RenamePolicy.choose_subset {α : Type} (policy : RenamePolicy) {xs : List α} :
    policy.choose xs ⊆ xs := by
  cases policy with
  | keepFirst => exact List.drop_subset 1 xs
  | renameAll => exact List.Subset.refl xs

theorem RenamePolicy.select_eq (policy : RenamePolicy) (sites : List Site) :
    policy.select sites = policy.choose sites := by
  cases policy <;> rfl

namespace Court

variable {c : Court} {policy : RenamePolicy} {naming naming' : Naming}

def knowing (c : Court) (words : Lexicon) : Court := { c with lexicon := words }

/-- The verdict that the court comes to on a name, with the words there are when its turn comes. -/
def Judges (c : Court) (space : Space) (name : Name) (sites : List Site) (verdict : Bool) : Prop :=
  ∃ words, c.lexicon.Extends words ∧ (c.knowing words).judge space name sites = .ok verdict

theorem Judges.settled {space : Space} {name : Name} {sites : List Site} {verdict : Bool}
    (h : c.Judges space name sites verdict) :
    ∃ ops, List.Forall₂ (fun site op => c.op site = .ok op) sites ops ∧
      Settled (ops.map (·.kind)) verdict := by
  obtain ⟨words, -, hjudge⟩ := h
  exact judge_ok (c := c.knowing words) hjudge

theorem ops_unique {sites : List Site} {ops ops' : List Op}
    (h : List.Forall₂ (fun site op => c.op site = .ok op) sites ops)
    (h' : List.Forall₂ (fun site op => c.op site = .ok op) sites ops') : ops = ops' :=
  Except.ok.inj ((mapM_eq_ok.mpr h).symm.trans (mapM_eq_ok.mpr h'))

theorem Judges.unique {space : Space} {name : Name} {sites : List Site} {verdict verdict' : Bool}
    (h : c.Judges space name sites verdict) (h' : c.Judges space name sites verdict') :
    verdict = verdict' := by
  obtain ⟨ops, hops, settled⟩ := h.settled
  obtain ⟨ops', hops', settled'⟩ := h'.settled
  obtain rfl := ops_unique hops hops'
  exact settled.unique settled'

/-- The suffix of a fresh name. Modules have none, classes the tag of their unit. -/
def Suffixed (c : Court) (unit : Nat) : Space → Option String → Prop
  | .modules, suffix => suffix = none
  | .classes, suffix => ∃ words tag, c.lexicon.Extends words ∧
      tagText c.units words unit = .ok tag ∧ suffix = some tag

def Asks (c : Court) (policy : RenamePolicy) (space : Space) (entry : Name × List Site)
    (rs : List Request) : Prop :=
  (∃ verdict, c.Judges space entry.1 entry.2 verdict ∧
    rs.map (fun r => (r.unit, r.name)) =
      if verdict then (policy.choose entry.2).map fun site => (site.unit, entry.1) else []) ∧
  ∀ r ∈ rs, c.Suffixed r.unit space r.suffix

theorem lexicon_of_freshen {unit : Nat} {name : Name} {suffix : Option String}
    (h : naming.freshen name unit suffix = .ok naming') :
    naming.lexicon.Extends naming'.lexicon := by
  obtain ⟨base, -, h⟩ := bind_eq_ok.mp h
  cases h
  exact Lexicon.extends_intern _ _

theorem exists_freshen {name : Name} (known : name.index < naming.lexicon.size) (unit : Nat)
    (suffix : Option String) : ∃ naming', naming.freshen name unit suffix = .ok naming' ∧
      naming.lexicon.Extends naming'.lexicon := by
  obtain ⟨base, hbase⟩ := Lexicon.exists_text known
  exact ⟨_, bind_eq_ok.mpr ⟨base, hbase, rfl⟩, Lexicon.extends_intern _ _⟩

theorem tagText_of_extends {units : List LinkUnit} {l l' : Lexicon} {unit : Nat} {tag : String}
    (more : l.Extends l') (h : tagText units l unit = .ok tag) :
    tagText units l' unit = .ok tag := by
  unfold tagText at h ⊢
  split at h
  · cases h
  · split at h
    · cases h
    · rw [Linking.ofChecked_eq_ok] at h ⊢
      exact more.text_eq_ok h

theorem nameModule_ok {entry : Name × List Site} (words : c.lexicon.Extends naming.lexicon)
    (h : c.nameModule policy naming entry = .ok naming') :
    ∃ rs, c.Asks policy .modules entry rs ∧ rs.foldlM Naming.serve naming = .ok naming' := by
  obtain ⟨verdict, hverdict, h⟩ := bind_eq_ok.mp h
  have judged : c.Judges .modules entry.1 entry.2 verdict := ⟨naming.lexicon, words, hverdict⟩
  cases verdict with
  | false =>
    cases h
    exact ⟨[], ⟨⟨false, judged, rfl⟩, by simp⟩, rfl⟩
  | true =>
    refine ⟨(policy.choose entry.2).map fun site => ⟨entry.1, site.unit, none⟩,
      ⟨⟨true, judged, ?_⟩, ?_⟩, ?_⟩
    · rw [List.map_map]
      rfl
    · intro r hr
      obtain ⟨site, -, rfl⟩ := List.mem_map.mp hr
      rfl
    · rw [List.foldlM_map, ← RenamePolicy.select_eq]
      exact Linking.foldlM_ofChecked.mp h

theorem nameClass_ok {entry : Name × List Site} (words : c.lexicon.Extends naming.lexicon)
    (h : c.nameClass policy naming entry = .ok naming') :
    ∃ rs, c.Asks policy .classes entry rs ∧ rs.foldlM Naming.serve naming = .ok naming' := by
  have tagged : ∀ (sites : List Site) (naming : Naming), c.lexicon.Extends naming.lexicon →
      sites.foldlM (fun naming site => do
        let tag ← tagText c.units naming.lexicon site.unit
        Linking.ofChecked (naming.freshen entry.1 site.unit (some tag))) naming = .ok naming' →
      ∃ rs : List Request,
        rs.map (fun r => (r.unit, r.name)) = sites.map (fun site => (site.unit, entry.1)) ∧
          (∀ r ∈ rs, c.Suffixed r.unit .classes r.suffix) ∧
          rs.foldlM Naming.serve naming = .ok naming' := by
    intro sites
    induction sites with
    | nil =>
      intro naming _ h
      cases h
      exact ⟨[], rfl, by simp, rfl⟩
    | cons site rest ih =>
      intro naming words h
      rw [List.foldlM_cons, bind_eq_ok] at h
      obtain ⟨next, hnext, h⟩ := h
      obtain ⟨tag, htag, hnext⟩ := bind_eq_ok.mp hnext
      rw [Linking.ofChecked_eq_ok] at hnext
      obtain ⟨rs, hrs, suffixes, hserved⟩ := ih _ (words.trans (lexicon_of_freshen hnext)) h
      exact ⟨⟨entry.1, site.unit, some tag⟩ :: rs, by rw [List.map_cons, hrs]; rfl,
        List.forall_mem_cons.mpr ⟨⟨naming.lexicon, tag, words, htag, rfl⟩, suffixes⟩,
        bind_eq_ok.mpr ⟨next, hnext, hserved⟩⟩
  obtain ⟨verdict, hverdict, h⟩ := bind_eq_ok.mp h
  have judged : c.Judges .classes entry.1 entry.2 verdict := ⟨naming.lexicon, words, hverdict⟩
  cases verdict with
  | false =>
    cases h
    exact ⟨[], ⟨⟨false, judged, rfl⟩, by simp⟩, rfl⟩
  | true =>
    obtain ⟨rs, hrs, suffixes, hserved⟩ := tagged _ naming words h
    exact ⟨rs, ⟨⟨true, judged, by rw [hrs, RenamePolicy.select_eq]; rfl⟩, suffixes⟩, hserved⟩

theorem lexicon_of_served {rs : List Request} (h : rs.foldlM Naming.serve naming = .ok naming') :
    naming.lexicon.Extends naming'.lexicon := by
  induction rs generalizing naming with
  | nil =>
    cases h
    exact .refl _
  | cons r rest ih =>
    obtain ⟨next, hnext, h⟩ := bind_eq_ok.mp h
    exact (lexicon_of_freshen hnext).trans (ih h)

theorem foldlM_asks {space : Space} {f : Naming → Name × List Site → Linking Naming}
    (each : ∀ naming entry naming', c.lexicon.Extends naming.lexicon →
      f naming entry = .ok naming' →
      ∃ rs, c.Asks policy space entry rs ∧ rs.foldlM Naming.serve naming = .ok naming')
    {entries : List (Name × List Site)} (words : c.lexicon.Extends naming.lexicon)
    (h : entries.foldlM f naming = .ok naming') :
    ∃ rss, List.Forall₂ (c.Asks policy space) entries rss ∧
      rss.flatten.foldlM Naming.serve naming = .ok naming' := by
  induction entries generalizing naming with
  | nil =>
    cases h
    exact ⟨[], .nil, rfl⟩
  | cons entry rest ih =>
    rw [List.foldlM_cons, bind_eq_ok] at h
    obtain ⟨next, hnext, h⟩ := h
    obtain ⟨rs, hrs, hserved⟩ := each _ _ _ words hnext
    obtain ⟨rss, hrss, hrest⟩ := ih (words.trans (lexicon_of_served hserved)) h
    refine ⟨rs :: rss, .cons hrs hrss, ?_⟩
    rw [List.flatten_cons, List.foldlM_append, hserved, ok_bind, hrest]

theorem exists_request_iff {declared : List Declared} {space : Space} {rss : List (List Request)}
    (asks : List.Forall₂ (c.Asks policy space) (Catalogue.table declared space).entries rss)
    (unit : Nat) (name : Name) :
    (∃ r ∈ rss.flatten, r.unit = unit ∧ r.name = name) ↔
      c.Judges space name (Catalogue.sites declared space name) true ∧
        ∃ site ∈ policy.choose (Catalogue.sites declared space name), site.unit = unit := by
  constructor
  · rintro ⟨r, hr, rfl, rfl⟩
    obtain ⟨rs, hrs, hmem⟩ := List.mem_flatten.mp hr
    obtain ⟨⟨name, sites⟩, hentry, ⟨verdict, judged, hkeys⟩, -⟩ := forall₂_exists_left asks hrs
    obtain ⟨rfl, -⟩ := Catalogue.mem_entries_iff.mp hentry
    have key : (r.unit, r.name) ∈ rs.map fun r => (r.unit, r.name) := List.mem_map_of_mem hmem
    rw [hkeys] at key
    cases verdict with
    | false => cases key
    | true =>
      rw [if_pos rfl] at key
      obtain ⟨site, hsite, heq⟩ := List.mem_map.mp key
      obtain ⟨hunit, hname⟩ := Prod.mk.inj heq
      exact ⟨hname ▸ judged, site, hname ▸ hsite, hunit⟩
  · rintro ⟨judged, site, hsite, rfl⟩
    have some_site : Catalogue.sites declared space name ≠ [] := by
      intro none_
      rw [none_] at hsite
      cases policy <;> cases hsite
    obtain ⟨rs, hrs, ⟨verdict, judged', hkeys⟩, -⟩ :=
      forall₂_exists_right asks (Catalogue.mem_entries_iff.mpr ⟨rfl, some_site⟩)
    obtain rfl : verdict = true := judged'.unique judged
    have key : (site.unit, name) ∈ rs.map fun r => (r.unit, r.name) := by
      rw [hkeys, if_pos rfl]
      exact List.mem_map.mpr ⟨site, hsite, rfl⟩
    obtain ⟨r, hr, heq⟩ := List.mem_map.mp key
    obtain ⟨hunit, hname⟩ := Prod.mk.inj heq
    exact ⟨r, List.mem_flatten.mpr ⟨rs, hrs, hr⟩, hunit, hname⟩

/-- A renaming comes of serving what the entries of the catalogue ask for, the modules first, once
the texts of all declared names are taken. -/
theorem exists_requests {declared : List Declared} (h : c.nameAll policy declared = .ok naming) :
    ∃ (pool : NamePool) (rss : Space → List (List Request)),
      NamePool.empty.takeAll c.lexicon (declared.flatMap Catalogue.roll) = .ok pool ∧
      (∀ space, List.Forall₂ (c.Asks policy space) (Catalogue.table declared space).entries
        (rss space)) ∧
      ((rss .modules).flatten ++ (rss .classes).flatten).foldlM Naming.serve
        ⟨.empty, pool, c.lexicon⟩ = .ok naming := by
  obtain ⟨catalogue, hcatalogue, h⟩ := bind_eq_ok.mp h
  obtain ⟨hpool, tables⟩ := Catalogue.ofDeclared_eq_ok.mp (Linking.ofChecked_eq_ok.mp hcatalogue)
  obtain ⟨between, hmodules, hclasses⟩ := bind_eq_ok.mp h
  obtain ⟨modules, asked, served⟩ :=
    foldlM_asks (fun _ _ _ => nameModule_ok) (.refl c.lexicon) hmodules
  obtain ⟨classes, asked', served'⟩ :=
    foldlM_asks (fun _ _ _ => nameClass_ok) (lexicon_of_served served) hclasses
  refine ⟨catalogue.pool, fun | .modules => modules | .classes => classes, hpool,
    fun space => ?_, ?_⟩
  · rw [← tables space]
    cases space with
    | classes => exact asked'
    | modules => exact asked
  · rw [List.foldlM_append, served, ok_bind, served']

/-- If no name is turned down, every name has its verdict; the renaming is sound; and renamed are
the declarations that the policy takes of the names to be told apart. -/
theorem nameAll_ok {declared : List Declared} (h : c.nameAll policy declared = .ok naming) :
    (∀ space name, Catalogue.sites declared space name ≠ [] →
      ∃ verdict, c.Judges space name (Catalogue.sites declared space name) verdict) ∧
    (∃ pool, NamePool.empty.takeAll c.lexicon (declared.flatMap Catalogue.roll) = .ok pool ∧
      Naming.Sound ⟨.empty, pool, c.lexicon⟩ naming) ∧
    ∀ unit name, (naming.renames.get? unit name).isSome = true ↔
      ∃ space, c.Judges space name (Catalogue.sites declared space name) true ∧
        ∃ site ∈ policy.choose (Catalogue.sites declared space name), site.unit = unit := by
  obtain ⟨pool, rss, hpool, asks, served⟩ := exists_requests h
  refine ⟨fun space name some_site => ?_, ⟨pool, hpool, ?_⟩, fun unit name => ?_⟩
  · obtain ⟨rs, -, ⟨verdict, judged, -⟩, -⟩ :=
      forall₂_exists_right (asks space) (Catalogue.mem_entries_iff.mpr ⟨rfl, some_site⟩)
    exact ⟨verdict, judged⟩
  · exact (Naming.Sound.refl rfl).run served
  · rw [Naming.isSome_get?_run served]
    have nothing : (Renaming.empty.get? unit name).isSome = false := rfl
    simp only [nothing, Bool.false_eq_true, false_or, List.mem_append, or_and_right, exists_or,
      exists_request_iff (asks _)]
    constructor
    · rintro (found | found)
      · exact ⟨.modules, found⟩
      · exact ⟨.classes, found⟩
    · rintro ⟨space, found⟩
      cases space with
      | classes => exact .inr found
      | modules => exact .inl found

/-- A fresh name is made from the name that a declaration had, as its kind has it. -/
theorem derived_of_nameAll {declared : List Declared} (h : c.nameAll policy declared = .ok naming)
    {unit : Nat} {name new : Name} (hget : naming.renames.get? unit name = some new) :
    ∃ space suffix base text, (∃ site ∈ Catalogue.sites declared space name, site.unit = unit) ∧
      c.Suffixed unit space suffix ∧ c.lexicon.text name = .ok base ∧
      naming.lexicon.text new = .ok text ∧ NamePool.Derived base suffix text := by
  obtain ⟨pool, rss, hpool, asks, served⟩ := exists_requests h
  let asked (r : Request) : Prop := ∃ space, r ∈ (rss space).flatten
  have start : Naming.Answers ⟨.empty, pool, c.lexicon⟩ asked ⟨.empty, pool, c.lexicon⟩ :=
    fun _ _ _ none_ => by cases none_
  have each : ∀ r ∈ (rss .modules).flatten ++ (rss .classes).flatten, asked r ∧
      ∃ base, c.lexicon.text r.name = .ok base ∧ pool.contains base = true := by
    intro r hr
    obtain ⟨space, hr⟩ : asked r :=
      (List.mem_append.mp hr).elim (fun hr => ⟨.modules, hr⟩) fun hr => ⟨.classes, hr⟩
    obtain ⟨-, site, hsite, -⟩ := (exists_request_iff (asks space) r.unit r.name).mp
      ⟨r, hr, rfl, rfl⟩
    exact ⟨⟨space, hr⟩, Catalogue.exists_text_of_mem_sites hpool (policy.choose_subset hsite)⟩
  obtain ⟨r, base, text, ⟨space, hr⟩, rfl, rfl, hbase, htext, derived⟩ :=
    start.run (.refl rfl) each served unit name new hget
  obtain ⟨-, site, hsite, hunit⟩ := (exists_request_iff (asks space) r.unit r.name).mp
    ⟨r, hr, rfl, rfl⟩
  obtain ⟨rs, hrs, mem⟩ := List.mem_flatten.mp hr
  obtain ⟨_, -, -, suffixes⟩ := forall₂_exists_left (asks space) hrs
  exact ⟨space, r.suffix, base, text, ⟨site, policy.choose_subset hsite, hunit⟩, suffixes r mem,
    hbase, htext, derived⟩

end Court

end Linkage
