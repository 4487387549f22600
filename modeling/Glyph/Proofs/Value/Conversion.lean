import Glyph.Proofs.Dyadic.Level
import Glyph.Proofs.Value.Native
import Glyph.Proofs.Value.Pairs
import Glyph.Proofs.Value.Shown

/-!
# Values for data of a host, and back

Data of a host is taken over exactly when no place in it holds a truth value, an integer beyond 64
bits, or bytes, and no map in it has a key that cannot be shown and so becomes no name; the places
are reached through the items of sequences and the values of maps, also through values that a later
one under the same name replaces. What is taken over is native and a value of a running program; to
take it over again changes nothing, and neither does handing it back first. Data of plain scalars,
lists and maps under names comes back as it was (`ofHost_exchange`).
-/

namespace Glyph

namespace Value

def contents : Value → List Value
  | array _ xs => xs
  | tuple xs => xs
  | map _ es => es.map Prod.snd
  | _ => []

def mapKeys : Value → List Key
  | map _ es => Entries.keys es
  | _ => []

/-- The first value stands at some place in the second. -/
inductive Within (y : Value) : Value → Prop
  | self : Within y y
  | deeper {w x : Value} (hw : w ∈ x.contents) (h : Within y w) : Within y x

/-- The value itself, whatever stands in it, is nothing that the language has. -/
inductive NoCounterpart : Value → Prop
  | bool (b : Bool) : NoCounterpart (foreign (.bool b))
  | int {n : Int} (h : ¬FitsInt64 n) : NoCounterpart (foreign (.int n))
  | bytes (bs : List UInt8) : NoCounterpart (foreign (.bytes bs))

/-- Data of a host made of its scalars that have a counterpart, of lists, and of maps with names for
keys. -/
inductive Plain : Value → Prop
  | none : Plain (foreign .none)
  | int (n : Int) : Plain (foreign (.int n))
  | float (x : Float) : Plain (foreign (.float x))
  | string (s : String) : Plain (foreign (.string s))
  | list {xs : List Value} (h : ∀ x ∈ xs, Plain x) : Plain (.array .host xs)
  | dict {es : List (Key × Value)} (hkeys : DistinctNames (Entries.keys es))
      (h : ∀ e ∈ es, Plain e.2) : Plain (.map .host es)

variable {x y v w : Value} {o : Origin} {xs : List Value} {es : List (Key × Value)}

theorem forall_within_iff {P : Value → Prop} :
    (∀ y, y.Within x → P y) ↔ P x ∧ ∀ w ∈ x.contents, ∀ y, y.Within w → P y := by
  constructor
  · exact fun h => ⟨h x .self, fun w hw y hy => h y (.deeper hw hy)⟩
  · rintro ⟨hx, hparts⟩ y hy
    cases hy with
    | self => exact hx
    | deeper hw hy => exact hparts _ hw y hy

theorem sizeOf_lt_of_mem_contents (h : w ∈ x.contents) : sizeOf w < sizeOf x := by
  cases x with
  | array o xs =>
      have hlt : sizeOf w < sizeOf xs := List.sizeOf_lt_of_mem h
      simp only [array.sizeOf_spec]
      omega
  | tuple xs =>
      have hlt : sizeOf w < sizeOf xs := List.sizeOf_lt_of_mem h
      simp only [tuple.sizeOf_spec]
      omega
  | map o es =>
      obtain ⟨⟨k, w⟩, he, rfl⟩ := List.mem_map.mp h
      have hlt := List.sizeOf_lt_of_mem he
      simp only [map.sizeOf_spec, Prod.mk.sizeOf_spec] at *
      omega
  | _ => cases h

/-- Induction over data of a host, where sequences of either kind have parts. -/
@[elab_as_elim]
theorem contents_induct {motive : Value → Prop}
    (h : ∀ x, (∀ w ∈ x.contents, motive w) → motive x) (x : Value) : motive x :=
  h x fun w _ => contents_induct h w
termination_by sizeOf x
decreasing_by exact sizeOf_lt_of_mem_contents ‹_›

/-! ## One level of the conversion -/

def pairOfHost (e : Key × Value) : Outcome (String × Value) := do
  return (← shown e.1.toName?, ← e.2.ofHost)

theorem pairOfHost_eq_ok_iff {e : Key × Value} {p : String × Value} :
    pairOfHost e = .ok p ↔ e.1.toName? = some p.1 ∧ e.2.ofHost = .ok p.2 := by
  simp only [pairOfHost, Outcome.bind_eq_ok_iff, shown_eq_ok_iff]
  constructor
  · rintro ⟨name, hname, w, hw, h⟩
    cases h
    exact ⟨hname, hw⟩
  · rintro ⟨hname, hw⟩
    exact ⟨p.1, hname, p.2, hw, rfl⟩

theorem ofHostItems_eq_mapM (xs : List Value) : ofHostItems xs = xs.mapM ofHost := by
  induction xs with
  | nil => rfl
  | cons x xs ih => rw [ofHostItems, List.mapM_cons, ih]

theorem ofHostEntries_eq_mapM (es : List (Key × Value)) :
    ofHostEntries es = do return Entries.named (← es.mapM pairOfHost) := by
  induction es with
  | nil => rfl
  | cons e es ih =>
      simp only [ofHostEntries, List.mapM_cons, ih, pairOfHost, bind_assoc, pure_bind]
      rfl

theorem ofHost_array_eq_ok_iff :
    (array o xs).ofHost = .ok v ↔ ∃ ws, xs.mapM ofHost = .ok ws ∧ v = vector ws := by
  rw [ofHost, ofHostItems_eq_mapM, Outcome.bind_eq_ok_iff]
  simp [pure, Except.pure, eq_comm]

theorem ofHost_tuple (xs : List Value) : (tuple xs).ofHost = (vector xs).ofHost := by
  rw [ofHost, ofHost]

/-- The names of a map are settled before its keys are made. -/
theorem ofHost_map_eq_ok_iff :
    (map o es).ofHost = .ok v ↔
      ∃ ps, es.mapM pairOfHost = .ok ps ∧ v = record (Entries.named (Entries.ofPairs ps)) := by
  rw [ofHost, ofHostEntries_eq_mapM, bind_assoc, Outcome.bind_eq_ok_iff]
  simp [pure, Except.pure, bind, Except.bind, Entries.ofPairs_named, eq_comm]

theorem toName?_of_mapM_pairOfHost {ps : List (String × Value)}
    (h : es.mapM pairOfHost = .ok ps) :
    (es.map fun e => e.1.toName?) = (Entries.keys ps).map some := by
  rw [Entries.keys, List.map_map]
  exact (map_of_mapM (fun _ _ _ hp => (pairOfHost_eq_ok_iff.mp hp).1.symm) h).symm

theorem ofHost_int_eq_ok_iff {n : Int} :
    (foreign (.int n)).ofHost = .ok v ↔ FitsInt64 n ∧ v = int (Int64.ofInt n) := by
  rw [ofHost, ofInt, int64?]
  by_cases h : FitsInt64 n
  · simp [h, pure, Except.pure, bind, Except.bind, eq_comm]
  · simp [h, Outcome.bind_eq_ok_iff]

theorem exists_pairOfHost_iff {e : Key × Value} :
    (∃ p, pairOfHost e = .ok p) ↔ ¬e.1.Long ∧ ∃ w, e.2.ofHost = .ok w := by
  rw [← Key.toName?_eq_none_iff, ← ne_eq, Option.ne_none_iff_exists']
  constructor
  · rintro ⟨p, hp⟩
    obtain ⟨hname, hw⟩ := pairOfHost_eq_ok_iff.mp hp
    exact ⟨⟨p.1, hname⟩, p.2, hw⟩
  · rintro ⟨⟨name, hname⟩, w, hw⟩
    exact ⟨(name, w), pairOfHost_eq_ok_iff.mpr ⟨hname, hw⟩⟩

theorem exists_ofHost_foreign_iff {a : Atom} :
    (∃ v, (foreign a).ofHost = .ok v) ↔ ¬(foreign a).NoCounterpart := by
  cases a with
  | int n =>
      have hself : (foreign (.int n)).NoCounterpart ↔ ¬FitsInt64 n :=
        ⟨fun h => by cases h; assumption, .int⟩
      simp [hself, ofHost_int_eq_ok_iff]
  | float x => exact iff_of_true ⟨_, rfl⟩ nofun
  | string s => exact iff_of_true ⟨_, rfl⟩ nofun
  | none => exact iff_of_true ⟨_, rfl⟩ nofun
  | bool b => exact iff_of_false nofun (not_not_intro (.bool b))
  | bytes bs => exact iff_of_false nofun (not_not_intro (.bytes bs))

/-- The value itself, whatever stands in it, is taken over: it has a counterpart, and its keys
become names. -/
def Convertible (x : Value) : Prop := ¬x.NoCounterpart ∧ ∀ k ∈ x.mapKeys, ¬k.Long

theorem convertible_of_mapKeys (hx : ∀ a, x ≠ foreign a) (hkeys : x.mapKeys = []) :
    x.Convertible := by
  constructor
  · intro h
    cases h <;> exact hx _ rfl
  · rw [hkeys]
    exact List.forall_mem_nil _

/-- Something is taken over when it is itself and all that stands in it is. -/
theorem exists_ofHost_iff_contents :
    (∃ v, x.ofHost = .ok v) ↔ x.Convertible ∧ ∀ w ∈ x.contents, ∃ u, w.ofHost = .ok u := by
  cases x with
  | array o xs =>
      have hself : (array o xs).Convertible := convertible_of_mapKeys (by simp) rfl
      simp [ofHost_array_eq_ok_iff, hself, contents, ← exists_mapM_iff]
  | tuple xs =>
      have hself : (tuple xs).Convertible := convertible_of_mapKeys (by simp) rfl
      simp [ofHost_tuple, ofHost_array_eq_ok_iff, hself, contents, ← exists_mapM_iff]
  | map o es =>
      have hself : ¬(map o es).NoCounterpart := by
        intro h
        cases h
      have hentries : (∃ ps, es.mapM pairOfHost = .ok ps) ↔
          (∀ k ∈ (map o es).mapKeys, ¬k.Long) ∧
            ∀ w ∈ (map o es).contents, ∃ u, w.ofHost = .ok u := by
        rw [exists_mapM_iff, contents, mapKeys, Entries.keys, List.forall_mem_map,
          List.forall_mem_map, ← forall₂_and]
        exact forall₂_congr fun _ _ => exists_pairOfHost_iff
      simp [ofHost_map_eq_ok_iff, Convertible, hself, ← hentries]
  | foreign a => simp [Convertible, mapKeys, contents, exists_ofHost_foreign_iff]
  | _ =>
      exact iff_of_true ⟨_, rfl⟩ ⟨convertible_of_mapKeys (by simp) rfl, List.forall_mem_nil _⟩

/-- Data is taken over when what stands at each place in it is. -/
theorem exists_ofHost_iff :
    (∃ v, x.ofHost = .ok v) ↔ ∀ y : Value, y.Within x → y.Convertible := by
  induction x using contents_induct with
  | h x ih =>
      rw [exists_ofHost_iff_contents, forall_within_iff]
      exact and_congr_right fun _ => forall₂_congr ih

/-! ## What is taken over -/

/-- A value as the language makes it: one of a running program in native containers. -/
structure Made (v : Value) : Prop where
  runtime : v.Runtime
  native : v.Native

theorem made_vector (h : ∀ x ∈ xs, x.Made) : (vector xs).Made :=
  ⟨.array fun x hx => (h x hx).runtime, .vector fun x hx => (h x hx).native⟩

theorem made_record (hkeys : DistinctNames (Entries.keys es)) (h : ∀ e ∈ es, e.2.Made) :
    (record es).Made :=
  ⟨.map hkeys fun e he => (h e he).runtime, .record fun e he => (h e he).native⟩

theorem Made.copy_eq (h : v.Made) : v.copy = v := h.native.copy_eq

/-- What data is taken over as is made by the language. -/
theorem made_of_ofHost (h : x.ofHost = .ok v) : v.Made := by
  induction x using contents_induct generalizing v with
  | h x ih =>
      cases x with
      | number n =>
          cases h
          exact ⟨.number n, .number n⟩
      | text s =>
          cases h
          exact ⟨.text s, .text s⟩
      | null =>
          cases h
          exact ⟨.null, .null⟩
      | array o xs =>
          obtain ⟨ws, hws, rfl⟩ := ofHost_array_eq_ok_iff.mp h
          exact made_vector (Outcome.Gives.mapM (fun x hx w hw => ih x hx hw) ws hws)
      | tuple xs =>
          rw [ofHost_tuple] at h
          obtain ⟨ws, hws, rfl⟩ := ofHost_array_eq_ok_iff.mp h
          exact made_vector (Outcome.Gives.mapM (fun x hx w hw => ih x hx hw) ws hws)
      | map o es =>
          obtain ⟨ps, hps, rfl⟩ := ofHost_map_eq_ok_iff.mp h
          have hpairs : ∀ p ∈ ps, p.2.Made :=
            Outcome.Gives.mapM (fun e he p hp =>
              ih e.2 (List.mem_map_of_mem he) (pairOfHost_eq_ok_iff.mp hp).2) ps hps
          refine made_record (Entries.distinctNames_named (Entries.nodup_keys_ofPairs ps)) ?_
          rw [Entries.named, List.forall_mem_map]
          exact fun p hp => (Entries.forall_mem_ofPairs (fun _ => True) Made
            (fun q hq => ⟨trivial, hpairs q hq⟩) p hp).2
      | foreign a =>
          cases a with
          | int n =>
              obtain ⟨-, rfl⟩ := ofHost_int_eq_ok_iff.mp h
              exact ⟨.number _, .number _⟩
          | float y =>
              cases h
              exact ⟨.number _, .number _⟩
          | string s =>
              cases h
              exact ⟨.text s, .text s⟩
          | none =>
              cases h
              exact ⟨.null, .null⟩
          | bool b => cases h
          | bytes bs => cases h

/-- Storing the entries of a map under their names again gives them back. -/
theorem named_ofPairs_asName (hkeys : DistinctNames (Entries.keys es)) (g : Value → Value) :
    Entries.named (Entries.ofPairs (es.map fun e => (e.1.asName, g e.2))) =
      es.map fun e => (e.1, g e.2) := by
  have hnodup : (Entries.keys (es.map fun e => (e.1.asName, g e.2))).Nodup := by
    rw [Entries.keys, List.map_map]
    exact Entries.nodup_asName hkeys
  rw [Entries.ofPairs_of_nodup hnodup, Entries.named_asName]
  exact fun e he => hkeys.names e.1 (List.mem_map_of_mem he)

theorem toName?_of_distinctNames (hkeys : DistinctNames (Entries.keys es)) {e : Key × Value}
    (he : e ∈ es) : e.1.toName? = some e.1.asName := by
  obtain ⟨name, hname⟩ := hkeys.names e.1 (List.mem_map_of_mem he)
  rw [hname]
  rfl

/-- To take over a value of a running program is to copy it. -/
theorem Runtime.ofHost_eq (hv : v.Runtime) : v.ofHost = .ok v.copy := by
  induction hv with
  | number n => rfl
  | text s => rfl
  | null => rfl
  | array _ ih =>
      rw [Value.copy, copyItems_eq_map]
      exact ofHost_array_eq_ok_iff.mpr ⟨_, mapM_eq_ok ih, rfl⟩
  | @map o es hkeys _ ih =>
      rw [Value.copy, copyEntries_eq_map, ← named_ofPairs_asName hkeys]
      refine ofHost_map_eq_ok_iff.mpr ⟨_, mapM_eq_ok fun e he => ?_, rfl⟩
      exact pairOfHost_eq_ok_iff.mpr ⟨toName?_of_distinctNames hkeys he, ih e he⟩

/-! ## What is handed back -/

theorem toHostItems_eq_mapM (xs : List Value) : toHostItems xs = xs.mapM toHost := by
  induction xs with
  | nil => rfl
  | cons x xs ih => rw [toHostItems, List.mapM_cons, ih]

theorem toHostEntries_eq_mapM (es : List (Key × Value)) :
    toHostEntries es = es.mapM (onEntry toHost) := by
  induction es with
  | nil => rfl
  | cons e es ih => simp only [toHostEntries, List.mapM_cons, ih, onEntry, bind_assoc, pure_bind]

theorem toHost_array_eq_ok_iff :
    (array o xs).toHost = .ok w ↔ ∃ ys, xs.mapM toHost = .ok ys ∧ w = array .host ys := by
  rw [toHost, toHostItems_eq_mapM, Outcome.bind_eq_ok_iff]
  simp [pure, Except.pure, eq_comm]

theorem toHost_map_eq_ok_iff :
    (map o es).toHost = .ok w ↔ ∃ fs, es.mapM (onEntry toHost) = .ok fs ∧ w = map .host fs := by
  rw [toHost, toHostEntries_eq_mapM, Outcome.bind_eq_ok_iff]
  simp [pure, Except.pure, eq_comm]

/-- A value of a running program is handed back as data that is taken over as its copy. -/
theorem Runtime.exists_toHost (hv : v.Runtime) :
    ∃ p, v.toHost = .ok p ∧ p.ofHost = .ok v.copy := by
  induction hv with
  | number n =>
      cases n with
      | int n =>
          have hfit : FitsInt64 n.toInt := ⟨n.le_toInt, n.toInt_lt⟩
          refine ⟨_, rfl, ofHost_int_eq_ok_iff.mpr ⟨hfit, ?_⟩⟩
          rw [Int64.ofInt_toInt, Value.copy]
      | float x => exact ⟨_, rfl, rfl⟩
  | text s => exact ⟨_, rfl, rfl⟩
  | null => exact ⟨_, rfl, rfl⟩
  | @array o xs _ ih =>
      obtain ⟨ys, hys⟩ := exists_mapM_iff.mpr fun x hx => (ih x hx).imp fun _ => And.left
      refine ⟨_, toHost_array_eq_ok_iff.mpr ⟨ys, hys, rfl⟩, ?_⟩
      rw [Value.copy, copyItems_eq_map]
      refine ofHost_array_eq_ok_iff.mpr ⟨_, mapM_of_mapM (fun x hx y hy => ?_) hys, rfl⟩
      obtain ⟨p, hp, hback⟩ := ih x hx
      cases hy.symm.trans hp
      exact hback
  | @map o es hkeys _ ih =>
      have hentries : ∀ e ∈ es, ∃ f, onEntry toHost e = .ok f := by
        intro e he
        obtain ⟨p, hp, -⟩ := ih e he
        exact ⟨(e.1, p), onEntry_eq_ok_iff.mpr ⟨rfl, hp⟩⟩
      obtain ⟨fs, hfs⟩ := exists_mapM_iff.mpr hentries
      refine ⟨_, toHost_map_eq_ok_iff.mpr ⟨fs, hfs, rfl⟩, ?_⟩
      rw [Value.copy, copyEntries_eq_map, ← named_ofPairs_asName hkeys]
      refine ofHost_map_eq_ok_iff.mpr ⟨_, mapM_of_mapM (fun e he f hf => ?_) hfs, rfl⟩
      obtain ⟨p, hp, hback⟩ := ih e he
      obtain ⟨hkey, hf⟩ := onEntry_eq_ok_iff.mp hf
      cases hf.symm.trans hp
      exact pairOfHost_eq_ok_iff.mpr ⟨by rw [hkey, toName?_of_distinctNames hkeys he], hback⟩

theorem Plain.toHost_of_ofHost (hx : x.Plain) (h : x.ofHost = .ok v) : v.toHost = .ok x := by
  induction hx generalizing v with
  | none =>
      cases h
      rfl
  | int n =>
      obtain ⟨hfit, rfl⟩ := ofHost_int_eq_ok_iff.mp h
      rw [toHost, Int64.toInt_ofInt_of_le hfit.1 hfit.2]
  | float x =>
      cases h
      rfl
  | string s =>
      cases h
      rfl
  | @list xs _ ih =>
      obtain ⟨ws, hws, rfl⟩ := ofHost_array_eq_ok_iff.mp h
      have hback := mapM_of_mapM (h := id) (fun x hx w hw => ih x hx hw) hws
      exact toHost_array_eq_ok_iff.mpr ⟨_, hback, by rw [List.map_id]⟩
  | @dict es hkeys _ ih =>
      obtain ⟨ps, hps, rfl⟩ := ofHost_map_eq_ok_iff.mp h
      have hname : ∀ {e p}, e ∈ es → pairOfHost e = .ok p → e.1.asName = p.1 := by
        intro e p he hp
        rw [← Option.some_inj, ← toName?_of_distinctNames hkeys he]
        exact (pairOfHost_eq_ok_iff.mp hp).1
      have hnodup : (Entries.keys ps).Nodup := by
        have hnames : Entries.keys ps = es.map fun e => e.1.asName :=
          map_of_mapM (fun e he p hp => (hname he hp).symm) hps
        rw [hnames]
        exact Entries.nodup_asName hkeys
      have hback : (Entries.named ps).mapM (onEntry toHost) = .ok (es.map id) := by
        rw [Entries.named, List.mapM_map]
        refine mapM_of_mapM (fun e he p hp => ?_) hps
        obtain ⟨name, hkey⟩ := hkeys.names e.1 (List.mem_map_of_mem he)
        have hsame : e.1 = Key.name p.1 := by
          rw [← hname he hp, hkey]
          rfl
        exact onEntry_eq_ok_iff.mpr ⟨hsame, ih e he (pairOfHost_eq_ok_iff.mp hp).2⟩
      rw [Entries.ofPairs_of_nodup hnodup]
      exact toHost_map_eq_ok_iff.mpr ⟨_, hback, by rw [List.map_id]⟩

/-! ## Keys that become the same name -/

/-- The names of a map that is taken over stand where a key first turned into them, and each has the
value of the last such key. -/
theorem keys_and_lookup_of_ofHost_map (h : (map o es).ofHost = .ok v) :
    ∃ (names : List String) (fs : List (Key × Value)),
      (es.map fun e => e.1.toName?) = names.map some ∧ v = record fs ∧
      Entries.keys fs = names.eraseDups.map Key.name ∧
      ∀ pre k y post name, es = pre ++ (k, y) :: post → k.toName? = some name →
        (∀ e ∈ post, e.1.toName? ≠ some name) →
          ∃ w, y.ofHost = .ok w ∧ fs.lookup (.name name) = some w := by
  obtain ⟨ps, hps, rfl⟩ := ofHost_map_eq_ok_iff.mp h
  refine ⟨_, _, toName?_of_mapM_pairOfHost hps, rfl, ?_, ?_⟩
  · rw [Entries.keys_named, Entries.keys_ofPairs]
  · rintro pre k y post name rfl hname hpost
    rw [List.mapM_append, Outcome.bind_eq_ok_iff] at hps
    obtain ⟨front, -, hps⟩ := hps
    rw [List.mapM_cons, bind_assoc, Outcome.bind_eq_ok_iff] at hps
    obtain ⟨⟨s, w⟩, hpair, hps⟩ := hps
    rw [bind_assoc, Outcome.bind_eq_ok_iff] at hps
    obtain ⟨back, hback, hps⟩ := hps
    cases hps
    obtain ⟨hs, hw⟩ := pairOfHost_eq_ok_iff.mp hpair
    obtain rfl : s = name := Option.some_inj.mp (hs.symm.trans hname)
    refine ⟨w, hw, ?_⟩
    rw [Entries.lookup_named]
    refine Entries.lookup_ofPairs fun hmem => ?_
    have hsome : some s ∈ (Entries.keys back).map some := List.mem_map_of_mem hmem
    rw [← toName?_of_mapM_pairOfHost hback] at hsome
    obtain ⟨e, he, heq⟩ := List.mem_map.mp hsome
    exact hpost e he heq

/-! ## There and back -/

/-- Data is taken over exactly when no place in it holds a truth value, an integer beyond 64 bits or
bytes, and no map in it has a key that cannot be shown. What it is taken over as is valid, stays as
it is when it is taken over again, also after it was handed back, and is handed back as the same
data where that is plain. Keys of a map that turn into one name become one entry, with the place of
the first and the value of the last of them. -/
theorem ofHost_exchange (x : Value) :
    ((∃ v, x.ofHost = .ok v) ↔
      ∀ y : Value, y.Within x → ¬y.NoCounterpart ∧ ∀ k ∈ y.mapKeys, ¬k.Long) ∧
    (∀ v, x.ofHost = .ok v →
      (∀ place, v.validate place = .ok ()) ∧ v.ofHost = .ok v ∧
      (∃ p, v.toHost = .ok p ∧ p.ofHost = .ok v) ∧ (x.Plain → v.toHost = .ok x)) ∧
    (∀ o es v, x = .map o es → x.ofHost = .ok v →
      ∃ (names : List String) (fs : List (Key × Value)),
        (es.map fun e => e.1.toName?) = names.map some ∧ v = record fs ∧
        Entries.keys fs = names.eraseDups.map Key.name ∧
        ∀ pre k y post name, es = pre ++ (k, y) :: post → k.toName? = some name →
          (∀ e ∈ post, e.1.toName? ≠ some name) →
            ∃ w, y.ofHost = .ok w ∧ fs.lookup (.name name) = some w) := by
  refine ⟨exists_ofHost_iff, ?_, ?_⟩
  · intro v h
    have hv := made_of_ofHost h
    have hagain := hv.runtime.ofHost_eq
    have hback := hv.runtime.exists_toHost
    rw [hv.copy_eq] at hagain hback
    exact ⟨fun _ => validate_eq_ok_iff.mpr hv.runtime.valid, hagain, hback,
      fun hx => hx.toHost_of_ofHost h⟩
  · rintro o es v rfl h
    exact keys_and_lookup_of_ofHost_map h

/-- A key that cannot be shown is refused although no place holds anything without a counterpart. -/
theorem ofHost_long_key :
    let x := map .host [(.atom (.int (Decimal.tenPow Decimal.maxDigits)), foreign (.int 0))]
    (∀ y : Value, y.Within x → ¬y.NoCounterpart) ∧ x.ofHost = misuse .unwritableInteger := by
  constructor
  · have hzero : ¬(foreign (.int 0)).NoCounterpart :=
      exists_ofHost_foreign_iff.mp ⟨int 0, rfl⟩
    rw [forall_within_iff]
    refine ⟨nofun, List.forall_mem_singleton.mpr ?_⟩
    rw [forall_within_iff]
    exact ⟨hzero, List.forall_mem_nil _⟩
  · have hname := Key.toName?_eq_none_iff.mpr Key.long_tenPow
    rw [ofHost, ofHostEntries, hname]
    rfl

/-- The integer and the text turn into one name. -/
example : (map .host [(.atom (.int 1), foreign (.float 0.5)), (.name "x", foreign .none),
      (.name "1", tuple [foreign (.int 2)])]).ofHost =
    .ok (record [(.name "1", vector [int 2]), (.name "x", null)]) := rfl

/-- A value that another one would replace has to be taken over all the same. -/
example : (map .host [(.atom (.int 1), foreign (.bytes [])), (.name "1", foreign .none)]).ofHost =
    misuse (.notConvertible "bytes") := rfl

end Value

end Glyph
