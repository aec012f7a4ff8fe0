import Isl.Immutable.OrderedMap
import Isl.Immutable.OrderedSet
import Isl.Dag.Hash
import Isl.Dag.Set
import Isl.Dag.SetLaws
import Isl.CwdSelector
import Isl.FeatureFlags
import Isl.SmartActions
