import Mathlib.Data.List.Induction
import Mathlib.Data.List.Nodup
import Mathlib.Order.Nat
import Interchange.Number.Numeral
import Interchange.Param.Evaluate

namespace Interchange

namespace Registry

variable {r r' r'' : Registry}

theorem names_register (r : Registry) (name : String) :
    (r.register name).1.names = if name ∈ r.names then r.names else r.names ++ [name] := by
  unfold register
  cases h : r.names.idxOf? name with
  | some id =>
    have hmem : name ∈ r.names := by
      by_contra hmem
      rw [List.idxOf?_eq_none_iff.mpr hmem] at h
      cases h
    rw [if_pos hmem]
  | none => rw [if_neg (List.idxOf?_eq_none_iff.mp h)]

theorem mem_names_register {x name : String} :
    x ∈ (r.register name).1.names ↔ x ∈ r.names ∨ x = name := by
  rw [names_register]
  split_ifs with h
  · exact (or_iff_left_of_imp (by rintro rfl; exact h)).symm
  · simp

/-- Names were added at the end, none of them twice. -/
structure Grows (r r' : Registry) : Prop where
  kept : r.names <+: r'.names
  nodup : r.names.Nodup → r'.names.Nodup

theorem Grows.refl (r : Registry) : r.Grows r := ⟨List.prefix_rfl, id⟩

theorem Grows.trans (h : r.Grows r') (h' : r'.Grows r'') : r.Grows r'' :=
  ⟨h.kept.trans h'.kept, h'.nodup ∘ h.nodup⟩

theorem grows_register (r : Registry) (name : String) : r.Grows (r.register name).1 := by
  refine ⟨?_, fun h => ?_⟩ <;> rw [names_register] <;> split_ifs with hmem
  · exact List.prefix_rfl
  · exact List.prefix_append _ _
  · exact h
  · exact List.nodup_append.mpr ⟨h, List.nodup_singleton name, by rintro a ha b hb rfl; simp_all⟩

theorem grows_registerAll (r : Registry) (names : List String) : r.Grows (r.registerAll names) := by
  induction names generalizing r with
  | nil => exact .refl r
  | cons name names ih => exact (grows_register r name).trans (ih _)

theorem mem_registerAll {x : String} {names : List String} :
    x ∈ (r.registerAll names).names ↔ x ∈ r.names ∨ x ∈ names := by
  induction names generalizing r with
  | nil => simp [registerAll]
  | cons name names ih =>
    change x ∈ ((r.register name).1.registerAll names).names ↔ _
    rw [ih, mem_names_register, List.mem_cons, or_assoc]

theorem contains_iff {h : Handle} : r.contains h = true ↔ r.names[h.id]? = some h.name := beq_iff_eq

theorem Grows.contains (h : r.Grows r') {x : Handle} (hx : r.contains x = true) :
    r'.contains x = true := by
  rw [contains_iff] at hx ⊢
  obtain ⟨more, hmore⟩ := h.kept
  rw [← hmore, List.getElem?_append_left (List.getElem?_eq_some_iff.mp hx).1, hx]

theorem contains_register (r : Registry) (name : String) :
    (r.register name).1.contains (r.register name).2 = true ∧ (r.register name).2.name = name := by
  rw [contains_iff]
  unfold register
  cases h : r.names.idxOf? name with
  | some id =>
    obtain ⟨hlt, hname, -⟩ := List.idxOf?_eq_some_iff.mp h
    exact ⟨List.getElem?_eq_some_iff.mpr ⟨hlt, hname⟩, rfl⟩
  | none => simp

/-- Where no name is repeated, the number and the name of a parameter determine each other. -/
theorem id_eq_iff (hr : r.names.Nodup) {a b : Handle} (ha : r.contains a = true)
    (hb : r.contains b = true) : a.id = b.id ↔ a.name = b.name := by
  rw [contains_iff] at ha hb
  constructor
  · intro h
    rw [h, hb] at ha
    exact (Option.some.inj ha).symm
  · intro h
    have hlt := (List.getElem?_eq_some_iff.mp ha).1
    exact (List.getElem?_inj hlt hr).mp (by rw [ha, hb, h])

theorem registerAll_append (r : Registry) (xs ys : List String) :
    r.registerAll (xs ++ ys) = (r.registerAll xs).registerAll ys := List.foldl_append

theorem register_of_mem {name : String} (h : name ∈ r.names) : (r.register name).1 = r :=
  congrArg Registry.mk ((names_register r name).trans (if_pos h))

theorem register_of_notMem {name : String} (h : name ∉ r.names) :
    (r.register name).1 = ⟨r.names ++ [name]⟩ :=
  congrArg Registry.mk ((names_register r name).trans (if_neg h))

/-- It makes no difference whether repeated names are left out before. -/
theorem registerAll_ofNames (r : Registry) (names : List String) :
    r.registerAll (ofNames names).names = r.registerAll names := by
  induction names using List.reverseRecOn with
  | nil => rfl
  | append_singleton names name ih =>
    have hlast : ofNames (names ++ [name]) = ((ofNames names).register name).1 :=
      registerAll_append {} names [name]
    rw [registerAll_append, ← ih, hlast]
    by_cases h : name ∈ (ofNames names).names
    · rw [register_of_mem h]
      exact (register_of_mem (mem_registerAll.mpr (.inr h))).symm
    · rw [register_of_notMem h, registerAll_append]

theorem registerAll_flatMap {α : Type} (r : Registry) (xs : List α) (f : α → List String) :
    r.registerAll (xs.flatMap fun x => (ofNames (f x)).names) = r.registerAll (xs.flatMap f) := by
  induction xs generalizing r with
  | nil => rfl
  | cons x xs ih =>
    rw [List.flatMap_cons, List.flatMap_cons, registerAll_append, registerAll_append,
      registerAll_ofNames, ih]

theorem get?_eq_some_iff {id : ℕ} {h : Handle} :
    r.get? id = some h ↔ h.id = id ∧ r.contains h = true := by
  rw [get?, Option.map_eq_some_iff, contains_iff]
  constructor
  · rintro ⟨x, hx, rfl⟩
    exact ⟨rfl, hx⟩
  · rintro ⟨rfl, hx⟩
    exact ⟨h.name, hx, rfl⟩

theorem lookup?_eq_some_iff (hr : r.names.Nodup) {x : String} {h : Handle} :
    r.lookup? x = some h ↔ h.name = x ∧ r.contains h = true := by
  rw [lookup?, Option.map_eq_some_iff, contains_iff]
  constructor
  · rintro ⟨id, hid, rfl⟩
    obtain ⟨hlt, hname, -⟩ := List.idxOf?_eq_some_iff.mp hid
    exact ⟨rfl, List.getElem?_eq_some_iff.mpr ⟨hlt, hname⟩⟩
  · rintro ⟨rfl, hx⟩
    obtain ⟨hlt, hname⟩ := List.getElem?_eq_some_iff.mp hx
    refine ⟨h.id, List.idxOf?_eq_some_iff.mpr ⟨hlt, hname, fun j hj hsame => ?_⟩, rfl⟩
    exact hj.ne ((hr.getElem_inj_iff).mp (hsame.trans hname.symm))

theorem register_new {name : String} (h : name ∉ r.names) :
    r.register name = (⟨r.names ++ [name]⟩, ⟨r.size, name⟩) := by
  rw [register, List.idxOf?_eq_none_iff.mpr h, size]

theorem nodup_ofNames (names : List String) : (ofNames names).names.Nodup :=
  (grows_registerAll {} names).nodup List.nodup_nil

theorem lookup?_register (hr : r.names.Nodup) (name : String) :
    (r.register name).1.lookup? name = some (r.register name).2 := by
  obtain ⟨hcontains, hname⟩ := contains_register r name
  exact (lookup?_eq_some_iff ((grows_register r name).nodup hr)).mpr ⟨hname, hcontains⟩

/-- What a registry hands out, it knows for ever. -/
theorem Grows.lookup? (h : r.Grows r') (hr : r.names.Nodup) {x : String} {handle : Handle}
    (hx : r.lookup? x = some handle) : r'.lookup? x = some handle := by
  obtain ⟨hname, hcontains⟩ := (lookup?_eq_some_iff hr).mp hx
  exact (lookup?_eq_some_iff (h.nodup hr)).mpr ⟨hname, h.contains hcontains⟩

theorem idxOf?_concat {names : List String} {name : String} (h : name ∉ names) (x : String) :
    (names ++ [name]).idxOf? x = if name == x then some names.length else names.idxOf? x := by
  have happend : (names ++ [name]).idxOf? x =
      (names.idxOf? x).or (([name].idxOf? x).map (· + names.length)) := List.findIdx?_append
  rw [happend, List.idxOf?_cons]
  by_cases hx : name = x
  · subst hx
    simp [List.idxOf?_eq_none_iff.mpr h]
  · simp [hx]

theorem names_ofNames {names : List String} (h : names.Nodup) : (ofNames names).names = names := by
  induction names using List.reverseRecOn with
  | nil => rfl
  | append_singleton names name ih =>
    obtain ⟨hnames, -, hdisjoint⟩ := List.nodup_append.mp h
    have hlast : ofNames (names ++ [name]) = ((ofNames names).register name).1 :=
      registerAll_append {} names [name]
    have hnew : name ∉ names := fun hmem => hdisjoint name hmem name (List.mem_singleton_self _) rfl
    rw [hlast, names_register, ih hnames, if_neg hnew]

/-- A registry as two tables, the names in order and the number of each name. Numbers stay at the
largest index once it is reached. -/
structure Tables where
  names : List String := []
  index : Std.HashMap String ℕ := {}

namespace Tables

def clamp (place : ℕ) : ℕ := min place (Number.indexLimit - 1)

def register (t : Tables) (name : String) : Tables × Handle :=
  match t.index[name]? with
  | some id => (t, ⟨id, name⟩)
  | none =>
    let id := clamp t.names.length
    (⟨t.names ++ [name], t.index.insert name id⟩, ⟨id, name⟩)

def registerAll (t : Tables) (names : List String) : Tables :=
  names.foldl (fun t name => (t.register name).1) t

def ofNames (names : List String) : Tables := registerAll {} names

def size (t : Tables) : ℕ := t.names.length

def get? (t : Tables) (id : ℕ) : Option Handle := t.names[id]?.map (⟨id, ·⟩)

def lookup? (t : Tables) (name : String) : Option Handle := t.index[name]?.map (⟨·, name⟩)

def contains (t : Tables) (handle : Handle) : Bool := t.names[handle.id]? == some handle.name

def resolve {F : Type} (t : Tables) (b : Bindings F) (handle : Handle) :
    Except (CircuitError F) F :=
  if t.contains handle then
    match b.get? handle.name with
    | some v => .ok v
    | none => .error (.unboundParameter handle.name)
  else .error (.unknownParameter handle)

def Same (t t' : Tables) : Prop :=
  t.names = t'.names ∧ ∀ name : String, t.index[name]? = t'.index[name]?

/-- Looking up by number and by name undo each other. -/
structure Bijective (t : Tables) : Prop where
  isSome_get? (id : ℕ) : (t.get? id).isSome = true ↔ id < t.size
  get?_iff (id : ℕ) (h : Handle) : t.get? id = some h ↔ h.id = id ∧ t.lookup? h.name = some h
  lookup?_iff (x : String) (h : Handle) : t.lookup? x = some h ↔ h.name = x ∧ t.get? h.id = some h

/-- The tables hold the names of a registry, and their places as far as there are numbers. -/
structure Shows (t : Tables) (r : Registry) : Prop where
  names_eq : t.names = r.names
  index_eq (name : String) : t.index[name]? = (r.names.idxOf? name).map clamp

variable {t : Tables}

theorem clamp_of_lt {place : ℕ} (h : place < Number.indexLimit) : clamp place = place := by
  unfold clamp
  omega

theorem Shows.register (h : t.Shows r) (name : String) :
    (t.register name).1.Shows (r.register name).1 ∧
      (t.register name).2 = ⟨clamp (r.register name).2.id, name⟩ := by
  unfold Tables.register Registry.register
  rw [h.index_eq]
  cases hname : r.names.idxOf? name with
  | some id => exact ⟨h, rfl⟩
  | none =>
    dsimp only [Option.map_none]
    rw [h.names_eq]
    refine ⟨⟨rfl, fun x => ?_⟩, rfl⟩
    rw [Std.HashMap.getElem?_insert, h.index_eq, idxOf?_concat (List.idxOf?_eq_none_iff.mp hname)]
    split_ifs <;> rfl

theorem Shows.registerAll (h : t.Shows r) (names : List String) :
    (t.registerAll names).Shows (r.registerAll names) := by
  induction names generalizing t r with
  | nil => exact h
  | cons name names ih => exact ih (h.register name).1

theorem shows_ofNames (names : List String) : (ofNames names).Shows (Registry.ofNames names) :=
  Shows.registerAll ⟨rfl, fun _ => Std.HashMap.getElem?_empty⟩ names

theorem Shows.same {t' : Tables} (h : t.Shows r) (h' : t'.Shows r) : t.Same t' :=
  ⟨h.names_eq.trans h'.names_eq.symm, fun name => (h.index_eq name).trans (h'.index_eq name).symm⟩

theorem Shows.size_eq (h : t.Shows r) : t.size = r.size := congrArg List.length h.names_eq

theorem Shows.get?_eq (h : t.Shows r) (id : ℕ) : t.get? id = r.get? id := by
  rw [get?, h.names_eq, Registry.get?]

theorem Shows.contains_eq (h : t.Shows r) (handle : Handle) :
    t.contains handle = r.contains handle := by
  rw [contains, h.names_eq, Registry.contains]

theorem Shows.lookup?_eq (h : t.Shows r) (name : String) :
    t.lookup? name = (r.lookup? name).map fun handle => ⟨clamp handle.id, name⟩ := by
  rw [lookup?, h.index_eq, Registry.lookup?, Option.map_map, Option.map_map]
  rfl

theorem Shows.lookup?_eq_of_size_le (h : t.Shows r) (hsize : r.size ≤ Number.indexLimit)
    (name : String) : t.lookup? name = r.lookup? name := by
  rw [h.lookup?_eq, Registry.lookup?, Option.map_map]
  refine Option.map_congr fun id hid => ?_
  obtain ⟨hlt, -⟩ := List.idxOf?_eq_some_iff.mp hid
  exact congrArg (Handle.mk · name) (clamp_of_lt (hlt.trans_le hsize))

theorem Shows.bijective (h : t.Shows r) (hr : r.names.Nodup) (hsize : r.size ≤ Number.indexLimit) :
    t.Bijective where
  isSome_get? id := by simp [get?, size]
  get?_iff id handle := by
    rw [h.get?_eq, h.lookup?_eq_of_size_le hsize, get?_eq_some_iff, lookup?_eq_some_iff hr]
    simp
  lookup?_iff x handle := by
    rw [h.get?_eq, h.lookup?_eq_of_size_le hsize, get?_eq_some_iff, lookup?_eq_some_iff hr]
    simp

theorem register_of_lookup? {name : String} {handle : Handle}
    (h : t.lookup? name = some handle) : t.register name = (t, handle) := by
  obtain ⟨id, hid, rfl⟩ := Option.map_eq_some_iff.mp h
  rw [register, hid]

/-- What a registry hands out for a name, it finds under the name. -/
theorem lookup?_of_history (before after : List String) (name : String) :
    (((ofNames before).register name).1.registerAll after).lookup? name =
      some ((ofNames before).register name).2 := by
  have hr := nodup_ofNames before
  obtain ⟨hshows, hissued⟩ := (shows_ofNames before).register name
  have hlater := (grows_registerAll _ after).lookup? ((grows_register _ name).nodup hr)
    (lookup?_register hr name)
  rw [(hshows.registerAll after).lookup?_eq, hlater, hissued]
  rfl

/-- Up to the number of all indices a name has the same handle as without a limit, and the handle is
known from then on. -/
theorem issued_of_size_le (before after : List String) (name : String)
    (hsize : ((ofNames before).register name).1.size ≤ Number.indexLimit) :
    let issued := ((ofNames before).register name).2
    issued = ((Registry.ofNames before).register name).2 ∧
      (((ofNames before).register name).1.registerAll after).contains issued = true := by
  intro issued
  obtain ⟨hshows, hissued⟩ := (shows_ofNames before).register name
  obtain ⟨hcontains, hname⟩ := contains_register (Registry.ofNames before) name
  have hlt : ((Registry.ofNames before).register name).2.id < Number.indexLimit := by
    rw [hshows.size_eq] at hsize
    exact (List.getElem?_eq_some_iff.mp (contains_iff.mp hcontains)).1.trans_le hsize
  have hsame : issued = ((Registry.ofNames before).register name).2 := by
    rw [show issued = _ from hissued, clamp_of_lt hlt]
    exact congrArg (Handle.mk _) hname.symm
  refine ⟨hsame, ?_⟩
  rw [(hshows.registerAll after).contains_eq, hsame]
  exact (grows_registerAll _ after).contains hcontains

/-- Over every history of registrations names are distinct. A known name changes nothing and has its
old handle, now and later; a new one comes last. The list of names is enough to build the registry
again. Up to the number of all indices the numbers and the names determine each other, a new name
has the next number, and its handle is known ever after and stands for its name. -/
theorem history_bijective {F : Type} (before after : List String) (name : String) :
    let t := ofNames before
    let issued := (t.register name).2
    let later := (t.register name).1.registerAll after
    t.names.Nodup ∧
      (name ∈ t.names → (t.register name).1 = t ∧ t.lookup? name = some issued) ∧
      (name ∉ t.names → (t.register name).1.names = t.names ++ [name]) ∧
      (issued.name = name ∧ later.register name = (later, issued)) ∧
      (ofNames t.names).Same t ∧
      (t.size ≤ Number.indexLimit → t.Bijective) ∧
      ((t.register name).1.size ≤ Number.indexLimit →
        (name ∉ t.names → issued.id = t.size) ∧
        issued = ((Registry.ofNames before).register name).2 ∧
        later.contains issued = true ∧ later.get? issued.id = some issued ∧
        ∀ b : Bindings F, later.resolve b issued =
          (b.get? name).elim (.error (.unboundParameter name)) .ok) := by
  intro t issued later
  have hr := nodup_ofNames before
  have ht : t.Shows (Registry.ofNames before) := shows_ofNames before
  obtain ⟨hshows, hissued⟩ := ht.register name
  have hlookup : later.lookup? name = some issued := lookup?_of_history before after name
  have hname : issued.name = name := congrArg Handle.name hissued
  refine ⟨ht.names_eq ▸ hr, fun hmem => ?_, fun hnew => ?_, ⟨hname, register_of_lookup? hlookup⟩,
    ?_, fun hsize => ht.bijective hr (ht.size_eq ▸ hsize), fun hsize => ?_⟩
  · have hknown : (t.register name).1.Shows (Registry.ofNames before) := by
      rwa [register_of_mem (ht.names_eq ▸ hmem)] at hshows
    have hfound : t.lookup? name = some issued := by
      rw [← lookup?_of_history before [] name, lookup?, lookup?, (ht.same hknown).2]
      rfl
    exact ⟨congrArg Prod.fst (register_of_lookup? hfound), hfound⟩
  · rw [hshows.names_eq, names_register, ht.names_eq, if_neg (ht.names_eq ▸ hnew)]
  · have hagain : (ofNames t.names).Shows (Registry.ofNames before) := by
      have hnames := shows_ofNames (Registry.ofNames before).names
      rwa [show Registry.ofNames (Registry.ofNames before).names = Registry.ofNames before from
        registerAll_ofNames {} before, ← ht.names_eq] at hnames
    exact hagain.same ht
  · obtain ⟨hsame, hstays⟩ : issued = _ ∧ later.contains issued = true :=
      issued_of_size_le before after name hsize
    refine ⟨fun hnew => ?_, hsame, hstays, ?_, fun b => ?_⟩
    · rw [hsame, register_new (ht.names_eq ▸ hnew), ht.size_eq]
    · rw [(hshows.registerAll after).get?_eq, get?_eq_some_iff,
        ← (hshows.registerAll after).contains_eq]
      exact ⟨rfl, hstays⟩
    · rw [resolve, if_pos hstays, hname]
      cases b.get? name <;> rfl

theorem history_bijective_angles :
    let t := ofNames ["theta", "phi", "theta"]
    let later := (t.register "gamma").1.registerAll ["phi", "beta"]
    t.names = ["theta", "phi"] ∧ t.Bijective ∧ (t.register "gamma").2 = ⟨2, "gamma"⟩ ∧
      later.names = ["theta", "phi", "gamma", "beta"] ∧ later.contains ⟨2, "gamma"⟩ = true ∧
      ∀ b : Bindings Float, later.resolve b ⟨2, "gamma"⟩ =
        (b.get? "gamma").elim (.error (.unboundParameter "gamma")) .ok := by
  intro t later
  have hshows := shows_ofNames ["theta", "phi", "theta"]
  have hnext := (hshows.register "gamma").1
  have ht : t.names = ["theta", "phi"] := hshows.names_eq.trans (by decide)
  have hgrown : (t.register "gamma").1.names = ["theta", "phi", "gamma"] :=
    hnext.names_eq.trans (by decide)
  obtain ⟨-, -, -, -, -, hbijective, hissued⟩ :=
    history_bijective (F := Float) ["theta", "phi", "theta"] ["phi", "beta"] "gamma"
  obtain ⟨-, hsame, hcontains, -, hresolve⟩ := hissued (by rw [size, hgrown]; decide)
  have hgamma : (t.register "gamma").2 = ⟨2, "gamma"⟩ := hsame.trans (by decide)
  rw [hgamma] at hcontains hresolve
  exact ⟨ht, hbijective (by rw [size, ht]; decide), hgamma,
    (hnext.registerAll ["phi", "beta"]).names_eq.trans (by decide), hcontains, hresolve⟩

/-- For one name more than there are indices no number is left, and the last one is used again. -/
theorem register_of_length_eq {before : List String} {name : String} (hnodup : before.Nodup)
    (hlength : before.length = Number.indexLimit) (hnew : name ∉ before) :
    let t := ofNames before
    let issued := (t.register name).2
    t.size = Number.indexLimit ∧ issued.id = Number.indexLimit - 1 ∧
      (t.register name).1.contains issued = false ∧
      ∃ other ≠ name, t.lookup? other = some ⟨issued.id, other⟩ := by
  intro t issued
  have hpos : 0 < Number.indexLimit := by decide
  have ht : t.Shows (Registry.ofNames before) := shows_ofNames before
  obtain ⟨hshows, hissued⟩ := ht.register name
  have hnames := names_ofNames hnodup
  have hregister := register_new (hnames.symm ▸ hnew)
  have hsize : (Registry.ofNames before).size = Number.indexLimit :=
    (congrArg List.length hnames).trans hlength
  have hid : issued = ⟨Number.indexLimit - 1, name⟩ := by
    rw [show issued = _ from hissued, hregister, hsize, clamp, Nat.min_eq_right (Nat.sub_le _ _)]
  have hlast : Number.indexLimit - 1 < before.length := by omega
  have hne : before[Number.indexLimit - 1] ≠ name :=
    fun heq => hnew (heq ▸ List.getElem_mem hlast)
  refine ⟨ht.size_eq.trans hsize, by rw [hid], ?_, before[Number.indexLimit - 1], hne, ?_⟩
  · rw [hshows.contains_eq, hregister, hid, hnames, Bool.eq_false_iff, Ne, contains_iff,
      List.getElem?_append_left hlast, List.getElem?_eq_getElem hlast]
    exact fun heq => hne (Option.some.inj heq)
  · have hplace : before.idxOf? before[Number.indexLimit - 1] = some (Number.indexLimit - 1) :=
      List.idxOf?_eq_some_iff.mpr ⟨hlast, rfl, fun j hj hsame =>
        hj.ne (hnodup.getElem_inj_iff.mp hsame)⟩
    rw [lookup?, ht.index_eq, hnames, hplace, hid]
    exact congrArg (fun id => some (Handle.mk id _)) (Nat.min_self _)

/-- Two names with one number, and a handle that its own registry does not know. -/
theorem history_collides : ∃ (before : List String) (name : String),
    let t := ofNames before
    let issued := (t.register name).2
    name ∉ t.names ∧ issued.id ≠ t.size ∧ (t.register name).1.contains issued = false ∧
      ∃ other ≠ name, t.lookup? other = some ⟨issued.id, other⟩ := by
  let nameAt (k : ℕ) : String := String.ofList (List.replicate k 'p')
  have hinj : Function.Injective nameAt := by
    intro j k h
    simpa [nameAt] using congrArg String.length h
  have hnodup : ((List.range Number.indexLimit).map nameAt).Nodup :=
    List.nodup_range.map hinj
  have hnew : nameAt Number.indexLimit ∉ (List.range Number.indexLimit).map nameAt := by
    rw [List.mem_map_of_injective hinj, List.mem_range]
    exact Nat.lt_irrefl _
  have hlength : ((List.range Number.indexLimit).map nameAt).length = Number.indexLimit := by
    rw [List.length_map, List.length_range]
  obtain ⟨hsize, hid, hcontains, hother⟩ := register_of_length_eq hnodup hlength hnew
  refine ⟨_, _, ?_, ?_, hcontains, hother⟩
  · rwa [(shows_ofNames _).names_eq, names_ofNames hnodup]
  · rw [hsize, hid]
    decide

end Tables

end Registry

end Interchange
