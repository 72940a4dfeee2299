namespace LayeredConfig

/-!
Profiles and ordered sets of profiles.  Profiles are told apart by name alone:
a profile that is only a default counts as present when it is asked for.
-/

structure Profile where
  name : String
  isDefault : Bool
  deriving Repr

namespace Profile

/-- A profile that was asked for. -/
def requested (name : String) : Profile where
  name := name
  isDefault := false

/-- A profile that is active only because nothing else is. -/
def fallback (name : String) : Profile where
  name := name
  isDefault := true

end Profile

/-- Profiles with distinct names, in the order in which they came. -/
structure ProfileSet where
  profiles : List Profile

namespace ProfileSet

def empty : ProfileSet where
  profiles := []

def names (set : ProfileSet) : List String :=
  set.profiles.map Profile.name

def contains (set : ProfileSet) (name : String) : Bool :=
  set.profiles.any (fun profile => profile.name = name)

/-- Add a profile unless one of its name is present. -/
def insert (set : ProfileSet) (profile : Profile) : ProfileSet :=
  if set.contains profile.name then set
  else { profiles := set.profiles ++ [profile] }

/-- The requested profiles of these names. -/
def ofNames (names : List String) : ProfileSet :=
  names.foldl (fun set name => set.insert (Profile.requested name)) empty

/-- Two sets agree when they hold the same names in the same order. -/
def agrees (left right : ProfileSet) : Bool :=
  left.names = right.names

def display (set : ProfileSet) : String :=
  "[" ++ ", ".intercalate set.names ++ "]"

theorem nodup_names_insert (set : ProfileSet) (profile : Profile)
    (distinct : set.names.Nodup) : (set.insert profile).names.Nodup := by
  unfold insert
  split
  · exact distinct
  · next absent =>
      simp only [contains, List.any_eq_true, decide_eq_true_eq, not_exists, not_and] at absent
      simp only [names, List.map_append, List.map_cons, List.map_nil]
      refine List.nodup_append.2 ⟨distinct, by simp, ?_⟩
      intro known member other single same
      obtain ⟨present, inside, called⟩ := List.mem_map.1 member
      have equal : other = profile.name := by simpa using single
      exact absent present inside (called.trans (same.trans equal))

/-- However often a name is asked for, the set has one profile of it. -/
theorem nodup_names_ofNames (names : List String) : (ofNames names).names.Nodup := by
  unfold ofNames
  refine List.foldlRecOn (motive := fun set : ProfileSet => set.names.Nodup) _ _ ?_ ?_
  · exact List.nodup_nil
  · intro set distinct name _
    exact nodup_names_insert set (Profile.requested name) distinct

end ProfileSet
end LayeredConfig
