import PartitionAwareMapping.Vectors
import PartitionAwareMapping.AbcNetwork
import PartitionAwareMapping.Rounding
import PartitionAwareMapping.Criticality
import PartitionAwareMapping.AigHypergraph
import PartitionAwareMapping.HypergraphLaws
import PartitionAwareMapping.PartitionResult
import PartitionAwareMapping.Kahypar
import PartitionAwareMapping.IfManager
import PartitionAwareMapping.PartitionInfo
import PartitionAwareMapping.IfHypergraph
import PartitionAwareMapping.CutEngine
import PartitionAwareMapping.CutArena
import PartitionAwareMapping.Signature
import PartitionAwareMapping.PartitionInterface
import PartitionAwareMapping.LocalityCheck
import PartitionAwareMapping.CutStore
import PartitionAwareMapping.EstRefs
