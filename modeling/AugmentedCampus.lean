import AugmentedCampus.Campus.Arrival
import AugmentedCampus.Campus.Buildings
import AugmentedCampus.Campus.Catalogue
import AugmentedCampus.Campus.Closest
import AugmentedCampus.Campus.Compass
import AugmentedCampus.Campus.DataManager
import AugmentedCampus.Campus.Display
import AugmentedCampus.Campus.DrawnRoute
import AugmentedCampus.Campus.Hashing
import AugmentedCampus.Campus.Heuristic
import AugmentedCampus.Campus.ImportInvariant
import AugmentedCampus.Campus.Journey
import AugmentedCampus.Campus.Launch
import AugmentedCampus.Campus.ListingOrder
import AugmentedCampus.Campus.Navigation
import AugmentedCampus.Campus.NavigationLocation
import AugmentedCampus.Campus.RouteFollowing
import AugmentedCampus.Campus.Snapshot
import AugmentedCampus.Campus.StoredRoute
import AugmentedCampus.Campus.ViewController
import AugmentedCampus.Editor.Consistency
import AugmentedCampus.Editor.Database
import AugmentedCampus.Editor.EdgePicking
import AugmentedCampus.Editor.Effects
import AugmentedCampus.Editor.EndpointRace
import AugmentedCampus.Editor.IndexRace
import AugmentedCampus.Editor.KeyEncoding
import AugmentedCampus.Editor.Keys
import AugmentedCampus.Editor.Operations
import AugmentedCampus.Editor.Page
import AugmentedCampus.Editor.PageInvariant
import AugmentedCampus.Editor.Rendering
import AugmentedCampus.Editor.Session
import AugmentedCampus.Editor.Turns
import AugmentedCampus.Editor.Variables
import AugmentedCampus.Editor.Workshop
import AugmentedCampus.Editor.WriteInvariant
import AugmentedCampus.Foundation.Bisection
import AugmentedCampus.Foundation.Dictionary
import AugmentedCampus.Foundation.DistinctSet
import AugmentedCampus.Foundation.Fallible
import AugmentedCampus.Foundation.Globe
import AugmentedCampus.Foundation.Greedy
import AugmentedCampus.Foundation.GuardedLog
import AugmentedCampus.Foundation.HashedSet
import AugmentedCampus.Foundation.History
import AugmentedCampus.Foundation.LastWrite
import AugmentedCampus.Foundation.Numeral
import AugmentedCampus.Foundation.Replica
import AugmentedCampus.Foundation.RunningMinimum
import AugmentedCampus.Foundation.Script
import AugmentedCampus.Foundation.Tree
import AugmentedCampus.Foundation.Turns
import AugmentedCampus.Foundation.Walk
import AugmentedCampus.Search.ArrayExtension
import AugmentedCampus.Search.BinarySearch
import AugmentedCampus.Search.Coincidence
import AugmentedCampus.Search.Expansion
import AugmentedCampus.Search.GraphNode
import AugmentedCampus.Search.LoopHeads
import AugmentedCampus.Search.OpenList
import AugmentedCampus.Search.Optimality
import AugmentedCampus.Search.PathShape
import AugmentedCampus.Search.Removals
import AugmentedCampus.Search.SearchInvariant
import AugmentedCampus.Search.StepCost
import AugmentedCampus.Search.Termination
import AugmentedCampus.Search.Trail
